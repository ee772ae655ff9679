import CivetWeb.Conn.ChunkedRead

namespace CivetWeb

/-- A connection at a size line: nothing is left of the current chunk. -/
structure Conn.AtLine (conn : Conn) : Prop where
  placed : conn.Placed
  boundary : conn.contentLen = conn.consumedContent

/-- Framing bytes move both counters. -/
structure LineStep (conn conn' : Conn) (bs : List Byte) : Prop where
  frame : conn' = { conn with
    contentLen := conn.contentLen + bs.length,
    consumedContent := conn.consumedContent + bs.length, sock := conn'.sock }
  unread : conn.unread = bs ++ conn'.unread
  wire : conn.wire = bs.map some ++ conn'.wire
  placed : conn'.Placed
  steady : Steady conn.sock → Steady conn'.sock

/-- A read of one byte that finds nothing still moves the length that is waited for. -/
structure MissedRead (conn conn' : Conn) : Prop where
  frame : conn' = { conn with contentLen := conn.contentLen + 1, sock := conn'.sock }
  unread : conn'.unread = conn.unread
  nothing : conn.wire.head?.join = none
  wire : conn'.wire = conn.wire.tail
  placed : conn'.Placed
  steady : Steady conn.sock → conn.unread = [] ∧ Steady conn'.sock

/-- The next read finds nothing. -/
structure Conn.Starved (conn : Conn) : Prop where
  placed : conn.Placed
  ended : conn.wire.head?.join = none
  wanting : conn.consumedContent ≤ conn.contentLen

theorem LineStep.isChunked (conn conn' : Conn) (bs : List Byte) (h : LineStep conn conn' bs) :
    conn'.isChunked = conn.isChunked := by rw [h.frame]

theorem LineStep.consumedContent (conn conn' : Conn) (bs : List Byte) (h : LineStep conn conn' bs) :
    conn'.consumedContent = conn.consumedContent + bs.length := by rw [h.frame]

theorem LineStep.contentLen (conn conn' : Conn) (bs : List Byte) (h : LineStep conn conn' bs) :
    conn'.contentLen = conn.contentLen + bs.length := by rw [h.frame]

theorem LineStep.atLine (conn conn' : Conn) (bs : List Byte) (h : LineStep conn conn' bs)
    (hc : conn.AtLine) : conn'.AtLine := by
  refine ⟨h.placed, ?_⟩
  rw [h.contentLen, h.consumedContent, hc.boundary]
  push_cast
  ring

theorem LineStep.refl (conn : Conn) (h : conn.Placed) : LineStep conn conn [] :=
  ⟨by simp, by simp, by simp, h, fun hs => hs⟩

theorem LineStep.trans (c1 c2 c3 : Conn) (s t : List Byte) (h : LineStep c1 c2 s)
    (k : LineStep c2 c3 t) : LineStep c1 c3 (s ++ t) := by
  refine ⟨?_, ?_, ?_, k.placed, fun hs => k.steady (h.steady hs)⟩
  · rw [k.frame, h.frame]
    simp only [List.length_append]
    congr 1
    · push_cast
      ring
    · ring
  · rw [h.unread, k.unread, List.append_assoc]
  · rw [h.wire, k.wire, List.map_append, List.append_assoc]

theorem Conn.placed_contentLen (conn : Conn) (n : Int) (h : conn.Placed) :
    Conn.Placed { conn with contentLen := n } := ⟨h.head_nonneg, h.head_le, h.data_le⟩

theorem Conn.placed_isChunked (conn : Conn) (n : Nat) (h : conn.Placed) :
    Conn.Placed { conn with isChunked := n } := ⟨h.head_nonneg, h.head_le, h.data_le⟩

/-- A read that gets all it asks for, the length that is waited for being moved along. -/
theorem LineStep.of_read (conn c : Conn) (bs : List Byte)
    (h : ReadStep { conn with contentLen := conn.contentLen + bs.length } c bs)
    (hw : conn.wire = bs.map some ++ c.wire) : LineStep conn c bs :=
  ⟨h.frame, h.unread, hw, h.placed, h.steady⟩

/-- A read of one byte, where no more is consumed than is waited for. -/
theorem readOne_cases (conn : Conn) (h : conn.Placed) (hle : (conn.consumedContent : Int) ≤ conn.contentLen) :
    (∃ b c, readOne conn = (some b, c) ∧ LineStep conn c [b]) ∨
      ∃ c, readOne conn = (none, c) ∧ MissedRead conn c := by
  obtain ⟨bumped, hb⟩ : ∃ c, c = { conn with contentLen := conn.contentLen + 1 } := ⟨_, rfl⟩
  have hwanted : wanted bumped 1 = 1 := by
    rw [wanted, hb]
    simp only [INT_MAX]
    rw [if_neg (by omega)]
    omega
  have hsame : bumped.wire = conn.wire ∧ bumped.unread = conn.unread ∧ bumped.sock = conn.sock := by
    rw [hb]
    exact ⟨rfl, rfl, rfl⟩
  obtain ⟨bs, hstep, hres, htaken, hall⟩ := mgReadInner_spec bumped 1 (hb ▸ conn.placed_contentLen _ h)
  obtain ⟨c, hc⟩ : ∃ c, c = (mgReadInner bumped 1).2 := ⟨_, rfl⟩
  have hone : readOne conn = ((mgReadInner bumped 1).1.bind List.head?, c) := by
    rw [hb] at hc
    rw [readOne, hb, hc]
  rw [← hc, hwanted, hsame.1] at htaken
  rw [← hc] at hstep
  cases htaken with
  | full hw hlen =>
    obtain ⟨b, rfl⟩ := List.length_eq_one_iff.mp hlen
    refine .inl ⟨b, c, ?_, LineStep.of_read conn c [b] (hb ▸ hstep) hw⟩
    rcases hres with hres | ⟨-, hnil⟩
    · rw [hone, hres]
      rfl
    · cases hnil
  | short more hw hlt hnone hrest =>
    obtain rfl : bs = [] := List.eq_nil_of_length_eq_zero (by omega)
    rw [List.map_nil, List.nil_append] at hw
    refine .inr ⟨c, ?_, ?_, ?_, hw ▸ hnone, hw ▸ hrest, hstep.placed, fun hs => ⟨?_, ?_⟩⟩
    · rw [hone]
      rcases hres with hres | ⟨hres, -⟩ <;> rw [hres] <;> rfl
    · rw [hstep.frame, hb]
      rfl
    · rw [← hsame.2.1, hstep.unread, List.nil_append]
    · have hnil := hall (by rw [hsame.2.2]; exact hs)
      rw [hwanted, hsame.2.1] at hnil
      cases hu : conn.unread with
      | nil => rfl
      | cons b u => simp [hu] at hnil
    · exact hstep.steady (by rw [hsame.2.2]; exact hs)

/-- At a size line the next byte of the stream is read, if there is one. -/
theorem readOne_cons (conn : Conn) (h : conn.AtLine) (hs : Steady conn.sock) (b : Byte) (u : List Byte)
    (hu : conn.unread = b :: u) :
    ∃ conn', readOne conn = (some b, conn') ∧ LineStep conn conn' [b] ∧ conn'.unread = u := by
  rcases readOne_cases conn h.placed h.boundary.ge with ⟨a, c, hread, hstep⟩ | ⟨c, -, hmiss⟩
  · have hrest := hstep.unread
    rw [hu, List.singleton_append, List.cons.injEq] at hrest
    rw [← hrest.1] at hread hstep
    exact ⟨c, hread, hstep, hrest.2.symm⟩
  · have hnil := (hmiss.steady hs).1
    rw [hu] at hnil
    cases hnil

/-- A read that finds nothing changes no more than the socket and the length that is waited for. -/
theorem readOne_starved (conn : Conn) (h : conn.Starved) : ∃ c, readOne conn = (none, c) ∧ MissedRead conn c := by
  rcases readOne_cases conn h.placed h.wanting with ⟨b, c, -, hstep⟩ | hmiss
  · have hended := h.ended
    rw [hstep.wire] at hended
    cases hended
  · exact hmiss

theorem MissedRead.isChunked (conn c : Conn) (h : MissedRead conn c) : c.isChunked = conn.isChunked := by rw [h.frame]

/-- Behind a read that finds nothing the next one finds nothing either, or the wire goes on. -/
theorem MissedRead.starved_or (conn c : Conn) (h : MissedRead conn c)
    (hle : (conn.consumedContent : Int) ≤ conn.contentLen) :
    c.Starved ∨ ∃ b rest, conn.wire = none :: some b :: rest := by
  have hwire := h.wire
  have hnothing := h.nothing
  cases hnext : c.wire.head?.join with
  | none =>
    refine .inl ⟨h.placed, hnext, ?_⟩
    rw [h.frame]
    show (conn.consumedContent : Int) ≤ conn.contentLen + 1
    omega
  | some b =>
    right
    rw [hwire] at hnext
    cases hw : conn.wire with
    | nil => simp [hw] at hnext
    | cons x w =>
      rw [hw, List.head?_cons, Option.join_some] at hnothing
      rw [hw, List.tail_cons] at hnext
      cases w with
      | nil => cases hnext
      | cons y w =>
        rw [List.head?_cons, Option.join_some] at hnext
        exact ⟨b, w, by rw [hnothing, hnext]⟩

/-- An extension is skipped up to and with its first CR, unless a read finds nothing before. -/
theorem skipExtension_spec (n : Nat) (x : Byte) (conn : Conn) (h : conn.AtLine)
    (hn : conn.unread.length < n) :
    (∃ ext conn', skipExtension n x conn = (CR, conn') ∧ LineStep conn conn' (ext ++ [CR]) ∧
      CR ∉ ext) ∨
    ∃ ext c conn', skipExtension n x conn = (ext.getLast?.getD x, conn') ∧ LineStep conn c ext ∧
      MissedRead c conn' ∧ CR ∉ ext := by
  induction n generalizing x conn with
  | zero => omega
  | succ n ih =>
    rcases readOne_cases conn h.placed h.boundary.ge with ⟨b, c1, hread, hstep⟩ | ⟨c1, hread, hmiss⟩
    swap
    · exact .inr ⟨[], conn, c1, by rw [skipExtension, hread]; rfl, LineStep.refl conn h.placed, hmiss, by simp⟩
    by_cases hb : b = CR
    · refine .inl ⟨[], c1, ?_, ?_, by simp⟩
      · rw [skipExtension, hread]
        simp [hb]
      · rw [← hb]
        exact hstep
    have hskip : skipExtension (n + 1) x conn = skipExtension n b c1 := by
      rw [skipExtension, hread]
      simp [hb]
    have hlen : c1.unread.length < n := by
      rw [hstep.unread, List.length_append, List.length_singleton] at hn
      omega
    rw [hskip]
    rcases ih b c1 (hstep.atLine conn c1 [b] h) hlen with
      ⟨ext, c2, hs, hl, hcr⟩ | ⟨ext, c, c2, hs, hl, hmiss, hcr⟩
    · refine .inl ⟨b :: ext, c2, hs, hstep.trans conn c1 c2 [b] _ hl, ?_⟩
      simp [Ne.symm hb, hcr]
    · refine .inr ⟨b :: ext, c, c2, ?_, hstep.trans conn c1 c [b] ext hl, hmiss, ?_⟩
      · rw [hs, List.getLast?_cons, Option.getD_some]
      · simp [Ne.symm hb, hcr]

theorem readLenChar_plain (lenbuf : List Byte) (conn c : Conn) (b : Byte) (hread : readOne conn = (some b, c))
    (hb : b ≠ SEMICOLON ∨ lenbuf = []) : readLenChar lenbuf conn = (b, c) := by
  rw [readLenChar, hread]
  simp only [Option.getD_some]
  rw [if_neg]
  intro hx
  rcases hb with hb | hb
  · exact hb hx.2
  · exact hx.1 hb

theorem readLenChar_missed (lenbuf : List Byte) (conn c : Conn) (hread : readOne conn = (none, c)) :
    readLenChar lenbuf conn = (NUL, c) := by
  have hdiff : NUL ≠ SEMICOLON := by decide
  rw [readLenChar, hread]
  simp [hdiff]

theorem readLenChar_extension (lenbuf : List Byte) (conn c1 : Conn) (h : conn.AtLine)
    (hread : readOne conn = (some SEMICOLON, c1)) (hstep : LineStep conn c1 [SEMICOLON]) (hne : lenbuf ≠ []) :
    (∃ ext conn', readLenChar lenbuf conn = (CR, conn') ∧
      LineStep conn conn' (SEMICOLON :: ext ++ [CR]) ∧ CR ∉ ext) ∨
    ∃ ext c conn', readLenChar lenbuf conn = (ext.getLast?.getD SEMICOLON, conn') ∧
      LineStep conn c (SEMICOLON :: ext) ∧ MissedRead c conn' ∧ CR ∉ ext := by
  have hchar : readLenChar lenbuf conn = skipExtension (c1.unread.length + 1) SEMICOLON c1 := by
    rw [readLenChar, hread]
    simp [hne]
  rw [hchar]
  rcases skipExtension_spec _ SEMICOLON c1 (hstep.atLine conn c1 _ h) (Nat.lt_succ_self _) with
    ⟨ext, c2, hs, hl, hcr⟩ | ⟨ext, c, c2, hs, hl, hmiss, hcr⟩
  · exact .inl ⟨ext, c2, hs, hstep.trans conn c1 c2 _ _ hl, hcr⟩
  · exact .inr ⟨ext, c, c2, hs, hstep.trans conn c1 c _ _ hl, hmiss, hcr⟩

/-- A read that finds nothing in front of a byte of the size line is an error. -/
theorem readSizeLine_missed (n : Nat) (lenbuf : List Byte) (conn c : Conn) (hread : readOne conn = (none, c)) :
    ∃ conn', readSizeLine n lenbuf conn = (none, conn') ∧ conn'.isChunked = 2 := by
  cases n with
  | zero => exact ⟨_, rfl, rfl⟩
  | succ n =>
    refine ⟨{ c with isChunked := 2 }, ?_, rfl⟩
    rw [readSizeLine, readLenChar_missed lenbuf conn c hread]
    have hcr : NUL ≠ CR := by decide
    have hlf : NUL ≠ LF := by decide
    have hx : isxdigit NUL = false := by decide
    simp [hcr, hlf, hx]

theorem readSizeLine_starved (n : Nat) (lenbuf : List Byte) (conn : Conn) (h : conn.Starved) :
    ∃ conn', readSizeLine n lenbuf conn = (none, conn') ∧ conn'.isChunked = 2 := by
  obtain ⟨c, hread, -⟩ := readOne_starved conn h
  exact readSizeLine_missed n lenbuf conn c hread

/-- What `lenbuf` holds of the bytes read: the digits, and from their end on no more
than the places of the CRs. -/
inductive SizeText : List Byte → List Byte → Prop where
  | digits (ds : List Byte) : (∀ a ∈ ds, isxdigit a = true) → SizeText ds ds
  | behind (ds more tail : List Byte) : ds ≠ [] → (∀ a ∈ ds, isxdigit a = true) → tail ≠ [] →
      (∀ a ∈ tail.head?, a = SEMICOLON ∨ a = CR) → NoCrlf tail →
      ((CR :: more).getLast? = some CR → tail.getLast? = some CR) →
      SizeText (ds ++ CR :: more) (ds ++ tail)

/-- Another CR, with an extension in front of it or not. -/
theorem SizeText.cr (lenbuf line blk : List Byte) (h : SizeText lenbuf line) (hne : lenbuf ≠ [])
    (hblk : blk = [] ∨ ∃ ext, blk = SEMICOLON :: ext ∧ CR ∉ ext) :
    SizeText (lenbuf ++ [CR]) (line ++ (blk ++ [CR])) := by
  have hstart : ∀ a ∈ (blk ++ [CR]).head?, a = SEMICOLON ∨ a = CR := by
    rcases hblk with rfl | ⟨ext, rfl, -⟩ <;> simp
  have hcrlf : NoCrlf (blk ++ [CR]) := by
    have hb : NoCrlf blk := by
      rcases hblk with rfl | ⟨ext, rfl, hext⟩
      · exact List.isChain_nil
      · have hdiff : CR ≠ SEMICOLON := by decide
        exact noCrlf_of_not_mem _ (Or.inl (by simp [hdiff, hext]))
    exact noCrlf_append blk [CR] hb (List.isChain_singleton CR) (by simp; decide)
  have hlf : ∀ a ∈ (blk ++ [CR]).head?, a ≠ LF := by
    intro a ha
    rcases hstart a ha with rfl | rfl <;> decide
  cases h with
  | digits _ hds =>
    exact SizeText.behind lenbuf [] (blk ++ [CR]) hne hds (by simp) hstart hcrlf (by simp)
  | behind ds more tail hds hx htail hhead hno hlast =>
    rw [List.append_assoc, List.append_assoc, List.cons_append]
    apply SizeText.behind ds (more ++ [CR]) (tail ++ (blk ++ [CR])) hds hx (by simp [htail])
    · intro a ha
      rw [List.head?_append_of_ne_nil _ htail] at ha
      exact hhead a ha
    · exact noCrlf_append tail _ hno hcrlf hlf
    · intro _
      simp

theorem SizeText.xdigit (lenbuf line : List Byte) (x : Byte) (h : SizeText lenbuf line)
    (hxd : isxdigit x = true) : SizeText (lenbuf ++ [x]) (line ++ [x]) := by
  obtain ⟨hcr, hlf, -⟩ := isxdigit_ne x hxd
  cases h with
  | digits _ hds =>
    apply SizeText.digits
    intro a ha
    rcases List.mem_append.mp ha with ha | ha
    · exact hds a ha
    · rw [List.mem_singleton.mp ha]
      exact hxd
  | behind ds more tail hds hx htail hhead hno hlast =>
    rw [List.append_assoc, List.append_assoc, List.cons_append]
    apply SizeText.behind ds (more ++ [x]) (tail ++ [x]) hds hx (by simp)
    · intro a ha
      rw [List.head?_append_of_ne_nil _ htail] at ha
      exact hhead a ha
    · exact noCrlf_append tail [x] hno (List.isChain_singleton x) (by simpa using hlf)
    · intro hl
      have hxcr : x = CR := by
        rw [← List.cons_append, List.getLast?_concat] at hl
        exact Option.some.inj hl
      exact absurd hxcr hcr

/-- A size line as it was read, with the value that `strtoul` makes of it. -/
structure ReadLine (text : List Byte) (v : Nat) : Prop where
  shape : ∃ digits ext, text = digits ++ ext ∧ digits ≠ [] ∧ (∀ a ∈ digits, isxdigit a = true) ∧
    v = min ULONG_MAX (hexValue digits) ∧ ReadExt ext

theorem ReadLine.sizeLine (text : List Byte) (v : Nat) (h : ReadLine text v) (hv : v < 2 ^ 63) :
    SizeLine (fun _ ext => ReadExt ext) text v := by
  obtain ⟨digits, ext, rfl, hne, hdigits, rfl, hext⟩ := h.shape
  have hmin : min ULONG_MAX (hexValue digits) = hexValue digits := by
    rw [ULONG_MAX] at hv ⊢
    omega
  refine ⟨hv, digits, ext, rfl, hne, hdigits, hmin, ?_, hext⟩
  intro a ha
  rcases hext.1 a ha with rfl | rfl <;> decide

/-- The text in `lenbuf` is converted up to its first CR. -/
theorem strtoul_lenbuf (ds more : List Byte) (hne : ds ≠ [])
    (hds : ∀ a ∈ ds, isxdigit a = true) :
    strtoul 16 (ds ++ CR :: more) = (min ULONG_MAX (hexValue ds), CR :: more) := by
  have hx : ∀ a, isxdigit a = true → a ≠ 120 ∧ a ≠ 88 := byte_all _ (by decide +kernel)
  have hr := strtol_digits 16 ds CR more (fun a ha => (isxdigit_isDigitIn a).mp (hds a ha)) hne
    (by decide) (by decide) (fun a ha => hx a (hds a ha))
  rw [strtoul, hr]
  simp only [Bool.false_eq_true, if_false, Prod.mk.injEq, and_true]
  change (if ULONG_MAX < hexValue ds then ULONG_MAX else hexValue ds) = _
  split_ifs with hbig <;> omega

/-- Behind a size line that was read whole `conn->is_chunked` tells whether it was the last. -/
def afterSize (conn : Conn) (v : Nat) : Conn :=
  if v = 0 then { conn with isChunked := 3 } else conn

/-- Text with a CR at its end is a size line with its CR. -/
theorem SizeText.accept (lenbuf line : List Byte) (h : SizeText lenbuf line)
    (hlast : lenbuf.getLast? = some CR) :
    ∃ v text more, strtoul 16 (lenbuf ++ [LF]) = (v, CR :: more) ∧ line = text ++ [CR] ∧
      ReadLine text v := by
  cases h with
  | digits _ hds =>
    exact absurd (List.mem_of_getLast? hlast) (xdigits_clean _ hds).1
  | behind ds more tail hds hx htail hhead hno hl =>
    rw [List.getLast?_append_of_ne_nil _ (by simp)] at hlast
    obtain ⟨t, rfl⟩ : ∃ t, tail = t ++ [CR] := List.getLast?_eq_some_iff.mp (hl hlast)
    have hnum := strtoul_lenbuf ds (more ++ [LF]) hds hx
    refine ⟨_, ds ++ t, more ++ [LF], by simpa using hnum, by simp, ds, t, rfl, hds, hx, rfl, ?_, ?_⟩
    · intro a ha
      cases t with
      | nil => simp at ha
      | cons b t => exact hhead a (by simpa using ha)
    · exact (List.isChain_append.mp hno).1

theorem SizeText.noCrlf (lenbuf line : List Byte) (h : SizeText lenbuf line) : NoCrlf line := by
  cases h with
  | digits _ hds => exact noCrlf_of_not_mem _ (.inl (xdigits_clean _ hds).1)
  | behind ds more tail hds hx htail hhead hno hlast =>
    refine noCrlf_append ds tail (noCrlf_of_not_mem _ (.inl (xdigits_clean _ hx).1)) hno ?_
    intro a ha
    rcases hhead a ha with rfl | rfl <;> decide

theorem SizeText.ne_nil (lenbuf line : List Byte) (h : SizeText lenbuf line) (hne : lenbuf ≠ []) : line ≠ [] := by
  cases h with
  | digits _ _ => exact hne
  | behind ds more tail hds _ _ _ _ _ => simp [hds]

/-- How reading a size line ends, `line` bytes of it being read: it fails, or a read within an extension finds nothing
and the next one does not either, or a size line and its CRLF are read. -/
inductive SizeOutcome (conn : Conn) (line : List Byte) : Option Nat × Conn → Prop where
  | failed (c : Conn) : c.isChunked = 2 → SizeOutcome conn line (none, c)
  | starved (v : Nat) (c : Conn) : c.Starved → c.isChunked = conn.isChunked →
      SizeOutcome conn line (some v, afterSize c v)
  | read (v : Nat) (text e : List Byte) (c : Conn) : LineStep conn c e →
      line ++ e = text ++ CRLF → ReadLine text v → SizeOutcome conn line (some v, afterSize c v)

theorem SizeOutcome.step (conn c1 : Conn) (line bs : List Byte) (r : Option Nat × Conn)
    (h : LineStep conn c1 bs) (hr : SizeOutcome c1 (line ++ bs) r) : SizeOutcome conn line r := by
  cases hr with
  | failed c hc => exact SizeOutcome.failed c hc
  | starved v c hc hch => exact SizeOutcome.starved v c hc (by rw [hch, h.isChunked])
  | read v text e c hstep htext hline =>
    refine SizeOutcome.read v text (bs ++ e) c (h.trans conn c1 c bs e hstep) ?_ hline
    rw [← htext, List.append_assoc]

theorem readSizeLine_turn (n : Nat) (lenbuf : List Byte) (conn c1 : Conn) (x : Byte)
    (hread : readLenChar lenbuf conn = (x, c1)) :
    readSizeLine (n + 1) lenbuf conn =
      if lenbuf ≠ [] ∧ x = CR ∧ lenbuf.getLast? ≠ some CR then readSizeLine n (lenbuf ++ [x]) c1
      else if 1 < lenbuf.length ∧ x = LF ∧ lenbuf.getLast? = some CR then
        if deref (strtoul 16 (lenbuf ++ [x])).2 ≠ CR then
          (none, { afterSize c1 (strtoul 16 (lenbuf ++ [x])).1 with isChunked := 2 })
        else (some (strtoul 16 (lenbuf ++ [x])).1, afterSize c1 (strtoul 16 (lenbuf ++ [x])).1)
      else if !isxdigit x then (none, { c1 with isChunked := 2 })
      else readSizeLine n (lenbuf ++ [x]) c1 := by
  rw [readSizeLine, hread]
  rfl

/-- Bytes of a line are read, or looked for in vain. -/
structure LineMoved (conn conn' : Conn) : Prop where
  placed : conn'.Placed
  wanting : conn'.consumedContent ≤ conn'.contentLen
  isChunked : conn'.isChunked = conn.isChunked
  shorter : conn'.unread.length ≤ conn.unread.length
  steady : Steady conn.sock → Steady conn'.sock

theorem LineMoved.trans (c1 c2 c3 : Conn) (h : LineMoved c1 c2) (k : LineMoved c2 c3) : LineMoved c1 c3 :=
  ⟨k.placed, k.wanting, k.isChunked.trans h.isChunked, k.shorter.trans h.shorter, fun hs => k.steady (h.steady hs)⟩

theorem readOne_moved (conn : Conn) (h : conn.Placed) (hle : (conn.consumedContent : Int) ≤ conn.contentLen) :
    LineMoved conn (readOne conn).2 := by
  rcases readOne_cases conn h hle with ⟨b, c, hread, hstep⟩ | ⟨c, hread, hmiss⟩
  · rw [hread]
    refine ⟨hstep.placed, ?_, hstep.isChunked, ?_, hstep.steady⟩
    · rw [hstep.consumedContent, hstep.contentLen]
      push_cast
      omega
    · rw [hstep.unread, List.length_append]
      exact Nat.le_add_left _ _
  · rw [hread]
    refine ⟨hmiss.placed, ?_, hmiss.isChunked, by rw [hmiss.unread], fun hs => (hmiss.steady hs).2⟩
    rw [hmiss.frame]
    show (conn.consumedContent : Int) ≤ conn.contentLen + 1
    omega

theorem skipExtension_moved (n : Nat) (x : Byte) (conn : Conn) (h : conn.Placed)
    (hle : (conn.consumedContent : Int) ≤ conn.contentLen) : LineMoved conn (skipExtension n x conn).2 := by
  induction n generalizing x conn with
  | zero => exact ⟨h, hle, rfl, le_rfl, fun hs => hs⟩
  | succ n ih =>
    have hone := readOne_moved conn h hle
    rw [skipExtension]
    generalize readOne conn = res at hone
    obtain ⟨r, c⟩ := res
    cases r with
    | none => exact hone
    | some b =>
      dsimp only
      split_ifs
      · exact hone
      · exact hone.trans _ _ _ (ih b c hone.placed hone.wanting)

theorem readLenChar_moved (lenbuf : List Byte) (conn : Conn) (h : conn.Placed)
    (hle : (conn.consumedContent : Int) ≤ conn.contentLen) : LineMoved conn (readLenChar lenbuf conn).2 := by
  have hone := readOne_moved conn h hle
  rw [readLenChar]
  dsimp only
  split_ifs
  · exact hone.trans _ _ _ (skipExtension_moved _ _ _ hone.placed hone.wanting)
  · exact hone

/-- A size line that is not read whole is an error, and one that is takes bytes off the stream. -/
theorem readSizeLine_moved (n : Nat) (lenbuf : List Byte) (conn : Conn) (h : conn.Placed)
    (hle : (conn.consumedContent : Int) ≤ conn.contentLen) :
    (∃ c, readSizeLine n lenbuf conn = (none, c) ∧ c.isChunked = 2) ∨
      ∃ v c, readSizeLine n lenbuf conn = (some v, afterSize c v) ∧ LineMoved conn c ∧
        (lenbuf = [] → c.unread.length < conn.unread.length) := by
  induction n generalizing lenbuf conn with
  | zero => exact .inl ⟨_, rfl, rfl⟩
  | succ n ih =>
    obtain ⟨x, c1, hread⟩ : ∃ x c1, readLenChar lenbuf conn = (x, c1) := ⟨_, _, rfl⟩
    have hmoved := readLenChar_moved lenbuf conn h hle
    rw [hread] at hmoved
    -- the first byte is one that is there
    have hfirst : lenbuf = [] → isxdigit x = true → c1.unread.length < conn.unread.length := by
      intro hnil hxd
      rcases readOne_cases conn h hle with ⟨b, c, hone, hstep⟩ | ⟨c, hone, -⟩
      · rw [readLenChar_plain lenbuf conn c b hone (.inr hnil), Prod.mk.injEq] at hread
        rw [← hread.2, hstep.unread, List.length_append, List.length_singleton]
        omega
      · rw [readLenChar_missed lenbuf conn c hone, Prod.mk.injEq] at hread
        rw [← hread.1] at hxd
        exact absurd hxd (by decide)
    have hnext (hfound : lenbuf = [] → isxdigit x = true) :
        (∃ c, readSizeLine n (lenbuf ++ [x]) c1 = (none, c) ∧ c.isChunked = 2) ∨
          ∃ v c, readSizeLine n (lenbuf ++ [x]) c1 = (some v, afterSize c v) ∧ LineMoved conn c ∧
            (lenbuf = [] → c.unread.length < conn.unread.length) := by
      refine (ih _ c1 hmoved.placed hmoved.wanting).imp_right ?_
      rintro ⟨v, c, hc, hmore, -⟩
      refine ⟨v, c, hc, hmoved.trans _ _ _ hmore, fun hnil => ?_⟩
      exact hmore.shorter.trans_lt (hfirst hnil (hfound hnil))
    rw [readSizeLine_turn n lenbuf conn c1 x hread]
    split_ifs with hcr hend hnum hxd
    · exact hnext fun hnil => absurd hnil hcr.1
    · exact .inl ⟨_, rfl, rfl⟩
    · refine .inr ⟨_, c1, rfl, hmoved, fun hnil => ?_⟩
      rw [hnil] at hend
      exact absurd hend.1 (by decide)
    · exact .inl ⟨_, rfl, rfl⟩
    · exact hnext fun _ => by simpa using hxd

/-- A turn on a stream that has ended: whatever `lenbuf[i]` was left at. -/
theorem readSizeLine_turn_starved (n : Nat) (lenbuf line : List Byte) (conn c1 : Conn) (x : Byte)
    (hread : readLenChar lenbuf conn = (x, c1)) (h : c1.Starved)
    (hch : c1.isChunked = conn.isChunked) :
    SizeOutcome conn line (readSizeLine (n + 1) lenbuf conn) := by
  rw [readSizeLine_turn n lenbuf conn c1 x hread]
  obtain ⟨c2, hnext, hc2⟩ := readSizeLine_starved n (lenbuf ++ [x]) c1 h
  split_ifs
  · rw [hnext]
    exact SizeOutcome.failed c2 hc2
  · exact SizeOutcome.failed _ rfl
  · exact SizeOutcome.starved _ c1 h hch
  · exact SizeOutcome.failed _ rfl
  · rw [hnext]
    exact SizeOutcome.failed c2 hc2

/-- A size line whose extension goes on behind a read that found nothing is an error, unless it is a paused one. -/
theorem readSizeLine_broken (n : Nat) (lenbuf line ext : List Byte) (conn c1 : Conn)
    (hread : readLenChar lenbuf conn = (ext.getLast?.getD SEMICOLON, c1)) (hcr : CR ∉ ext)
    (hquiet : ∀ c ∈ ext.getLast?, ¬ (isxdigit c = true ∨ c = LF)) :
    SizeOutcome conn line (readSizeLine (n + 1) lenbuf conn) := by
  obtain ⟨y, hy⟩ : ∃ y, y = ext.getLast?.getD SEMICOLON := ⟨_, rfl⟩
  have hstop : y ≠ CR ∧ y ≠ LF ∧ isxdigit y = false := by
    cases hl : ext.getLast? with
    | none =>
      rw [hl, Option.getD_none] at hy
      rw [hy]
      decide
    | some c =>
      have hc := hquiet c hl
      rw [hl, Option.getD_some] at hy
      rw [hy]
      rw [not_or, Bool.not_eq_true] at hc
      exact ⟨fun h => hcr (h ▸ List.mem_of_getLast? hl), hc.2, hc.1⟩
  rw [readSizeLine_turn n lenbuf conn c1 _ hread, ← hy, if_neg fun h => hstop.1 h.2.1, if_neg fun h => hstop.2.1 h.2.1,
    if_pos (by rw [hstop.2.2]; rfl)]
  exact SizeOutcome.failed _ rfl

theorem readSizeLine_sound (n : Nat) (lenbuf line : List Byte) (conn : Conn) (start : List (Option Byte))
    (hstart : start = line.map some ++ conn.wire) (hplain : ¬ PausedExtension start) (h : conn.AtLine)
    (ht : SizeText lenbuf line) : SizeOutcome conn line (readSizeLine n lenbuf conn) := by
  have hcrlf : CR ≠ LF := by decide
  have hxcr : isxdigit CR = false := by decide
  induction n generalizing lenbuf line conn with
  | zero => exact SizeOutcome.failed _ rfl
  | succ n ih =>
    have hnext (c1 : Conn) (bs : List Byte) (hstep : LineStep conn c1 bs) :
        start = (line ++ bs).map some ++ c1.wire := by
      rw [hstart, hstep.wire, List.map_append, List.append_assoc]
    -- a turn that sets `lenbuf[i]` to a CR, behind an extension or not
    have turnCr (blk : List Byte) (c1 : Conn) (hread : readLenChar lenbuf conn = (CR, c1))
        (hstep : LineStep conn c1 (blk ++ [CR]))
        (hblk : blk = [] ∨ ∃ ext, blk = SEMICOLON :: ext ∧ CR ∉ ext) :
        SizeOutcome conn line (readSizeLine (n + 1) lenbuf conn) := by
      rw [readSizeLine_turn n lenbuf conn c1 CR hread]
      by_cases hgo : lenbuf ≠ [] ∧ CR = CR ∧ lenbuf.getLast? ≠ some CR
      · rw [if_pos hgo]
        apply SizeOutcome.step conn c1 line (blk ++ [CR]) _ hstep
        exact ih _ _ c1 (hnext c1 _ hstep) (hstep.atLine conn c1 _ h) (ht.cr lenbuf line blk hgo.1 hblk)
      · rw [if_neg hgo, if_neg (fun hlf => hcrlf hlf.2.1), hxcr]
        exact SizeOutcome.failed _ rfl
    rcases readOne_cases conn h.placed h.boundary.ge with ⟨b, c1, hone, hstep⟩ | ⟨c1, hone, -⟩
    swap
    · obtain ⟨c2, hread, hch⟩ := readSizeLine_missed (n + 1) lenbuf conn c1 hone
      rw [hread]
      exact SizeOutcome.failed c2 hch
    by_cases hext : b = SEMICOLON ∧ lenbuf ≠ []
    · obtain ⟨rfl, hne⟩ := hext
      rcases readLenChar_extension lenbuf conn c1 h hone hstep hne with
        ⟨ext, c2, hread, hstep2, hcr⟩ | ⟨ext, c, c2, hread, hstep2, hmiss, hcr⟩
      · exact turnCr (SEMICOLON :: ext) c2 hread hstep2 (Or.inr ⟨ext, rfl, hcr⟩)
      have hat := hstep2.atLine conn c _ h
      rcases hmiss.starved_or c c2 hat.boundary.ge with hst | ⟨b, rest, hwire⟩
      · refine readSizeLine_turn_starved n lenbuf line conn c2 _ hread hst ?_
        rw [hmiss.isChunked, hstep2.isChunked]
      · refine readSizeLine_broken n lenbuf line ext conn c2 hread hcr fun a ha hgo => hplain ?_
        refine ⟨line, ext, b, rest, ?_, ht.ne_nil lenbuf line hne, ht.noCrlf lenbuf line, hcr, a, ha, hgo⟩
        rw [hnext c _ hstep2, hwire]
    · have hplain' : b ≠ SEMICOLON ∨ lenbuf = [] := by tauto
      have hread := readLenChar_plain lenbuf conn c1 b hone hplain'
      by_cases hb : b = CR
      · rw [hb] at hread hstep
        exact turnCr [] c1 hread hstep (Or.inl rfl)
      rw [readSizeLine_turn n lenbuf conn c1 b hread, if_neg (fun hcr => hb hcr.2.1)]
      by_cases hend : 1 < lenbuf.length ∧ b = LF ∧ lenbuf.getLast? = some CR
      · obtain ⟨v, text, more, hnum, hline, hread⟩ := ht.accept lenbuf line hend.2.2
        rw [if_pos hend, hend.2.1, hnum]
        rw [hend.2.1] at hstep
        refine SizeOutcome.read v text [LF] c1 hstep ?_ hread
        simp [hline, CRLF]
      · rw [if_neg hend]
        cases hxd : isxdigit b with
        | false => exact SizeOutcome.failed _ rfl
        | true =>
          apply SizeOutcome.step conn c1 line [b] _ hstep
          exact ih _ _ c1 (hnext c1 _ hstep) (hstep.atLine conn c1 _ h) (ht.xdigit lenbuf line b hxd)

theorem skipTrailer_stop (n k : Nat) (conn : Conn) (h : 4 ≤ k ∨ conn.isChunked ≠ 3) :
    skipTrailer n k conn = conn := by
  cases n with
  | zero => rfl
  | succ n => rw [skipTrailer, if_pos h]

theorem skipTrailer_turn (n k : Nat) (conn c1 : Conn) (b : Byte) (hk : k < 4)
    (hch : conn.isChunked = 3) (hread : readOne conn = (some b, c1)) :
    skipTrailer (n + 1) k conn =
      match trailerStep k b with
      | some k' => skipTrailer n k' c1
      | none => { c1 with isChunked := 2 } := by
  have hgo : ¬ (4 ≤ k ∨ conn.isChunked ≠ 3) := by omega
  have hstop : skipTrailer n k { c1 with isChunked := 2 } = { c1 with isChunked := 2 } :=
    skipTrailer_stop n k _ (Or.inr (by simp))
  rw [skipTrailer, if_neg hgo, hread, trailerStep]
  dsimp only
  split_ifs with h1 h2 h3
  · rfl
  · rfl
  · rfl
  · exact hstop

theorem skipTrailer_missed (n k : Nat) (conn c : Conn) (hk : k < 4) (hch : conn.isChunked = 3)
    (hread : readOne conn = (none, c)) : (skipTrailer (n + 1) k conn).isChunked = 2 := by
  have hgo : ¬ (4 ≤ k ∨ conn.isChunked ≠ 3) := by omega
  rw [skipTrailer, if_neg hgo, hread]
  dsimp only
  rw [skipTrailer_stop n k _ (Or.inr (by simp))]

/-- The trailer loop takes over a trailer and no more, or it reports an error. -/
theorem skipTrailer_sound (n k : Nat) (conn : Conn) (h : conn.AtLine) (hch : conn.isChunked = 3)
    (hk : k ≤ 4) (hn : conn.unread.length < n) :
    (skipTrailer n k conn).isChunked = 2 ∨
      ∃ e, LineStep conn (skipTrailer n k conn) e ∧ TrailerRest k e := by
  induction n generalizing k conn with
  | zero => omega
  | succ n ih =>
    by_cases hk4 : k = 4
    · right
      rw [skipTrailer_stop (n + 1) k conn (Or.inl hk4.ge), hk4]
      exact ⟨[], LineStep.refl conn h.placed, rfl⟩
    have hlt : k < 4 := by omega
    rcases readOne_cases conn h.placed h.boundary.ge with ⟨b, c1, hread, hstep⟩ | ⟨c1, hread, -⟩
    swap
    · exact Or.inl (skipTrailer_missed n k conn c1 hlt hch hread)
    rw [skipTrailer_turn n k conn c1 b hlt hch hread]
    cases hs : trailerStep k b with
    | none => exact Or.inl rfl
    | some k' =>
      have hk' : k' ≤ 4 := by
        rw [trailerStep] at hs
        split_ifs at hs <;> simp only [Option.some.injEq] at hs <;> omega
      have hlen : c1.unread.length < n := by
        rw [hstep.unread, List.length_append, List.length_singleton] at hn
        omega
      have hch1 : c1.isChunked = 3 := by rw [hstep.isChunked, hch]
      rcases ih k' c1 (hstep.atLine conn c1 [b] h) hch1 hk' hlen with hbad | ⟨e, hl, he⟩
      · exact Or.inl hbad
      · right
        refine ⟨b :: e, hstep.trans conn c1 _ [b] e hl, ?_⟩
        exact (trailerRest_cons k hlt b e).mpr ⟨k', hs, he⟩

/-- A trailer that the stream holds is taken over. -/
theorem skipTrailer_complete (n k : Nat) (conn : Conn) (h : conn.AtLine) (hsteady : Steady conn.sock)
    (hch : conn.isChunked = 3) (hk : k ≤ 4) (e rest : List Byte) (he : TrailerRest k e)
    (hu : conn.unread = e ++ rest) (hn : conn.unread.length < n) : LineStep conn (skipTrailer n k conn) e := by
  induction n generalizing k conn e with
  | zero => omega
  | succ n ih =>
    by_cases hk4 : k = 4
    · rw [skipTrailer_stop (n + 1) k conn (Or.inl hk4.ge)]
      have hnil : e = [] := by simpa [hk4, TrailerRest] using he
      rw [hnil]
      exact LineStep.refl conn h.placed
    have hlt : k < 4 := by omega
    cases e with
    | nil => exact absurd he (trailerRest_nil k hlt)
    | cons b e =>
      obtain ⟨c1, hread, hstep, hrest⟩ := readOne_cons conn h hsteady b (e ++ rest) (by rw [hu]; rfl)
      obtain ⟨k', hs, he'⟩ := (trailerRest_cons k hlt b e).mp he
      rw [skipTrailer_turn n k conn c1 b hlt hch hread, hs]
      have hk' : k' ≤ 4 := by
        rw [trailerStep] at hs
        split_ifs at hs <;> simp only [Option.some.injEq] at hs <;> omega
      have hlen : c1.unread.length < n := by
        rw [hu, List.cons_append, List.length_cons] at hn
        rw [hrest]
        omega
      have hch1 : c1.isChunked = 3 := by rw [hstep.isChunked, hch]
      exact hstep.trans conn c1 _ [b] e
        (ih k' c1 (hstep.atLine conn c1 [b] h) (hstep.steady hsteady) hch1 hk' e he' hrest hlen)

end CivetWeb
