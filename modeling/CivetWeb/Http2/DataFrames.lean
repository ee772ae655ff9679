import CivetWeb.Conn.Throttle
import CivetWeb.Http2.Frames
import CivetWeb.Lib.System

namespace CivetWeb

/-- The nine bytes that `http2_data_frame_head` writes. -/
def dataFrameOctets (streamId frameSize : UInt32) (isFinal : Bool) : List Byte :=
  [((frameSize &&& 0xFF0000) >>> 16).toUInt8, ((frameSize &&& 0xFF00) >>> 8).toUInt8,
    (frameSize &&& 0xFF).toUInt8, 0, if isFinal then 1 else 0,
    ((streamId &&& 0xFF000000) >>> 24).toUInt8, ((streamId &&& 0xFF0000) >>> 16).toUInt8,
    ((streamId &&& 0xFF00) >>> 8).toUInt8, (streamId &&& 0xFF).toUInt8]

/-- `http2_data_frame_head` -/
def http2DataFrameHead (out : Output) (streamId frameSize : UInt32) (isFinal : Bool) : Output :=
  (pushAll out (dataFrameOctets streamId frameSize isFinal) 9).2

/-- `mg_write` on an HTTP/2 stream. -/
def http2Write (out : Output) (streamId : UInt32) (buf : List Byte) : Int × Output :=
  if INT_MAX < buf.length then (-1, out)
  else mgWrite (http2DataFrameHead out streamId (UInt32.ofNat buf.length) false) buf

/-- The bytes are these frames, one after another. -/
def ReadsFrames : List Byte → List Http2Frame → Prop
  | s, [] => s = []
  | s, frame :: frames => ∃ rest, readFrame s = some (frame, rest) ∧ ReadsFrames rest frames

theorem octet_and (x : UInt32) (k : Nat) :
    ((x.toNat &&& 0xFF * 2 ^ k) >>> k) % 256 = x.toNat / 2 ^ k % 256 := by
  rw [Nat.shiftRight_and_distrib, Nat.shiftRight_eq_div_pow, Nat.shiftRight_eq_div_pow,
    Nat.mul_div_cancel _ (by positivity), show 0xFF = 2 ^ 8 - 1 by rfl, Nat.and_two_pow_sub_one_eq_mod,
    Nat.mod_mod]

theorem word_octets (x : UInt32) :
    ((x &&& 0xFF000000) >>> 24).toUInt8.toNat = x.toNat / 2 ^ 24 % 256 ∧
      ((x &&& 0xFF0000) >>> 16).toUInt8.toNat = x.toNat / 2 ^ 16 % 256 ∧
      ((x &&& 0xFF00) >>> 8).toUInt8.toNat = x.toNat / 2 ^ 8 % 256 ∧
      (x &&& 0xFF).toUInt8.toNat = x.toNat % 256 := by
  refine ⟨?_, ?_, ?_, ?_⟩
  · exact octet_and x 24
  · exact octet_and x 16
  · exact octet_and x 8
  · have h := octet_and x 0
    rw [Nat.pow_zero, Nat.mul_one, Nat.div_one, Nat.shiftRight_zero] at h
    exact h

theorem octets_value (x : Nat) :
    x / 2 ^ 16 % 256 * 0x10000 + x / 2 ^ 8 % 256 * 0x100 + x % 256 = x % 2 ^ 24 ∧
      x / 2 ^ 24 % 256 * 0x1000000 + x / 2 ^ 16 % 256 * 0x10000 + x / 2 ^ 8 % 256 * 0x100 + x % 256 =
        x % 2 ^ 32 := by
  constructor <;> omega

/-- What a reader takes from the head of a frame. -/
theorem readFrame_head (streamId frameSize : UInt32) (isFinal : Bool) (s : List Byte) :
    readFrame (dataFrameOctets streamId frameSize isFinal ++ s) =
      let size := frameSize.toNat % 2 ^ 24
      if HTTP2_MAX_FRAME_SIZE < size then none
      else if s.length < size then none
      else some (⟨0, if isFinal then 1 else 0, streamId.toNat, s.take size⟩, s.drop size) := by
  obtain ⟨-, hs2, hs1, hs0⟩ := word_octets frameSize
  obtain ⟨hi3, hi2, hi1, hi0⟩ := word_octets streamId
  have hid : streamId.toNat % 2 ^ 32 = streamId.toNat := Nat.mod_eq_of_lt streamId.toNat_lt
  simp only [dataFrameOctets, List.cons_append, List.nil_append, readFrame, hs2, hs1, hs0, hi3, hi2,
    hi1, hi0, octets_value, hid]
  rfl

/-- A frame that is read is a head of nine bytes and its payload, whatever comes behind it. -/
theorem readFrame_cut {s rest : List Byte} {frame : Http2Frame} (h : readFrame s = some (frame, rest)) :
    frame.payload.length ≤ HTTP2_MAX_FRAME_SIZE ∧
      ∃ head : List Byte, head.length = 9 ∧ s = head ++ (frame.payload ++ rest) ∧
        ∀ t, readFrame (head ++ (frame.payload ++ t)) = some (frame, t) := by
  match s with
  | h0 :: h1 :: h2 :: h3 :: h4 :: h5 :: h6 :: h7 :: h8 :: s =>
    rw [readFrame] at h
    split_ifs at h with hmax hlen
    rw [Option.some.injEq, Prod.mk.injEq] at h
    obtain ⟨rfl, rfl⟩ := h
    have htake : (s.take (h0.toNat * 0x10000 + h1.toNat * 0x100 + h2.toNat)).length =
        h0.toNat * 0x10000 + h1.toNat * 0x100 + h2.toNat := by
      rw [List.length_take]
      omega
    refine ⟨htake.le.trans (by omega), [h0, h1, h2, h3, h4, h5, h6, h7, h8], rfl, ?_, ?_⟩
    · simp
    · intro t
      simp only [List.cons_append, List.nil_append, readFrame]
      rw [if_neg hmax, if_neg (by rw [List.length_append]; omega), List.take_left' htake,
        List.drop_left' htake]

theorem readsFrames_append {s t : List Byte} {frames frames' : List Http2Frame}
    (h : ReadsFrames s frames) (h' : ReadsFrames t frames') :
    ReadsFrames (s ++ t) (frames ++ frames') := by
  induction frames generalizing s with
  | nil =>
    rw [show s = [] from h]
    exact h'
  | cons frame frames ih =>
    obtain ⟨rest, hread, hrest⟩ := h
    obtain ⟨-, head, -, rfl, hcut⟩ := readFrame_cut hread
    exact ⟨rest ++ t, by simpa using hcut (rest ++ t), ih hrest⟩

/-- What is read as frames is read in one way only. -/
theorem readsFrames_of_append {s t : List Byte} {frames frames' : List Http2Frame}
    (h : ReadsFrames s frames) (h' : ReadsFrames (s ++ t) frames') :
    ∃ frames'', frames' = frames ++ frames'' ∧ ReadsFrames t frames'' := by
  induction frames generalizing s frames' with
  | nil =>
    rw [show s = [] from h] at h'
    exact ⟨frames', rfl, h'⟩
  | cons frame frames ih =>
    obtain ⟨rest, hread, hrest⟩ := h
    obtain ⟨-, head, hhead, rfl, hcut⟩ := readFrame_cut hread
    have happ : readFrame (head ++ (frame.payload ++ rest) ++ t) = some (frame, rest ++ t) := by
      simpa using hcut (rest ++ t)
    cases frames' with
    | nil =>
      rw [show head ++ (frame.payload ++ rest) ++ t = [] from h'] at happ
      cases happ
    | cons frame' frames' =>
      obtain ⟨rest', hread', hrest'⟩ := h'
      rw [happ, Option.some.injEq, Prod.mk.injEq] at hread'
      obtain ⟨rfl, rfl⟩ := hread'
      obtain ⟨frames'', rfl, hreads⟩ := ih hrest hrest'
      exact ⟨frames'', rfl, hreads⟩

theorem readsFrames_split {s : List Byte} {frames frames' : List Http2Frame}
    (h : ReadsFrames s (frames ++ frames')) :
    ∃ s1 s2, s = s1 ++ s2 ∧ ReadsFrames s1 frames ∧ ReadsFrames s2 frames' := by
  induction frames generalizing s with
  | nil => exact ⟨[], s, rfl, rfl, h⟩
  | cons frame frames ih =>
    obtain ⟨rest, hread, hrest⟩ := h
    obtain ⟨-, head, -, rfl, hcut⟩ := readFrame_cut hread
    obtain ⟨s1, s2, rfl, h1, h2⟩ := ih hrest
    exact ⟨head ++ (frame.payload ++ s1), s2, by simp, ⟨s1, hcut s1, h1⟩, h2⟩

/-- Every frame costs nine bytes besides its payload. -/
theorem readsFrames_length {s : List Byte} {frames : List Http2Frame} (h : ReadsFrames s frames) :
    s.length = 9 * frames.length + (frames.flatMap Http2Frame.payload).length := by
  induction frames generalizing s with
  | nil =>
    rw [show s = [] from h]
    rfl
  | cons frame frames ih =>
    obtain ⟨rest, hread, hrest⟩ := h
    obtain ⟨-, head, hhead, rfl, -⟩ := readFrame_cut hread
    rw [List.length_append, List.length_append, hhead, ih hrest, List.flatMap_cons, List.length_append,
      List.length_cons]
    omega

/-! ### The handler of a stream -/

/-- A handler on a stream: what was sent up to the response headers, and what it has written since. -/
structure StreamOutput where
  out : Output
  streamId : UInt32
  headers : List Byte
  written : List Byte
  deriving DecidableEq, Repr

def beginStream (out : Output) (streamId : UInt32) : StreamOutput := ⟨out, streamId, out.sent, []⟩

/-- The handler writes, and the client takes it with the frame that ends the stream. -/
def writeStep (s : StreamOutput) (buf : List Byte) : Option StreamOutput :=
  if buf.length ≤ INT_MAX ∧ CanSend s.out.sends (buf.length + 18) then
    some { s with out := (http2Write s.out s.streamId buf).2, written := s.written ++ buf }
  else none

/-- `handle_http2` where `handle_request` is done. -/
def endStream (s : StreamOutput) : Output := http2DataFrameHead s.out s.streamId 0 true

/-- Frames of data of a stream, with these bytes in them. -/
def DataFrames (streamId : UInt32) (frames : List Http2Frame) (data : List Byte) : Prop :=
  (∀ frame ∈ frames, frame.frameType = 0 ∧ frame.flags = 0 ∧ frame.streamId = streamId.toNat) ∧
    frames.flatMap Http2Frame.payload = data

/-- Where the handler returns, what it has written is sent in frames with an empty one at the end. -/
def BodyFramed (s : StreamOutput) : Prop :=
  ∃ body frames, (endStream s).sent = s.headers ++ body ∧
    ReadsFrames body (frames ++ [⟨0, 1, s.streamId.toNat, []⟩]) ∧ DataFrames s.streamId frames s.written

/-- The buffer fits into a frame, and the throttle lets it pass. -/
def WriteFits (s : StreamOutput) (buf : List Byte) : Prop :=
  buf.length ≤ HTTP2_MAX_FRAME_SIZE ∧ ThrottleAllows s.out buf

/-- What the handler has written so far is in frames. -/
def WrittenFramed (s : StreamOutput) : Prop :=
  ∃ body frames, s.out.sent = s.headers ++ body ∧ ReadsFrames body frames ∧
    DataFrames s.streamId frames s.written

/-- The last frame can still be sent. -/
def CanEnd (s : StreamOutput) : Prop := s.headers <+: s.out.sent ∧ CanSend s.out.sends 9

theorem http2DataFrameHead_canSend (out : Output) (streamId frameSize : UInt32) (isFinal : Bool) {n : Nat}
    (h : CanSend out.sends n) (hn : 9 ≤ n) :
    ∃ sends', http2DataFrameHead out streamId frameSize isFinal =
      { out with sends := sends', sent := out.sent ++ dataFrameOctets streamId frameSize isFinal } ∧
        CanSend sends' (n - 9) := by
  obtain ⟨sends', hpush, hrest⟩ := pushAll_canSend out (dataFrameOctets streamId frameSize isFinal) h hn
  refine ⟨sends', ?_, hrest⟩
  rw [http2DataFrameHead]
  exact congrArg Prod.snd hpush

theorem throttleAllows_sent (out : Output) (sends' : List SendEvent) (sent' buf : List Byte) :
    ThrottleAllows { out with sends := sends', sent := sent' } buf ↔ ThrottleAllows out buf := by
  have htime : (Output.time { out with sends := sends', sent := sent' }).1 = out.time.1 := by
    rw [Output.time, Output.time]
    cases out.clock <;> rfl
  rw [ThrottleAllows, ThrottleAllows, htime]

theorem bodyFramed_iff {s : StreamOutput} (h : CanEnd s) : BodyFramed s ↔ WrittenFramed s := by
  obtain ⟨⟨body, hbody⟩, hsend⟩ := h
  obtain ⟨sends', hend, -⟩ := http2DataFrameHead_canSend s.out s.streamId 0 true hsend (le_refl 9)
  have hsent : (endStream s).sent = s.headers ++ (body ++ dataFrameOctets s.streamId 0 true) := by
    rw [endStream, hend, ← hbody, List.append_assoc]
  have hlast : ReadsFrames (dataFrameOctets s.streamId 0 true) [⟨0, 1, s.streamId.toNat, []⟩] := by
    refine ⟨[], ?_, rfl⟩
    have hread := readFrame_head s.streamId 0 true []
    rw [List.append_nil] at hread
    exact hread
  constructor
  · rintro ⟨body', frames, hsent', hreads, hdata⟩
    obtain ⟨s1, s2, rfl, h1, h2⟩ := readsFrames_split hreads
    rw [hsent] at hsent'
    have hlen : s2.length = (dataFrameOctets s.streamId 0 true).length := readsFrames_length h2
    obtain ⟨rfl, -⟩ := List.append_inj' (List.append_cancel_left hsent').symm hlen
    exact ⟨s1, frames, hbody.symm, h1, hdata⟩
  · rintro ⟨body', frames, hsent', hreads, hdata⟩
    obtain rfl : body = body' := List.append_cancel_left (hbody.trans hsent')
    exact ⟨_, frames, hsent, readsFrames_append hreads hlast, hdata⟩

/-- The bytes of one write are frames with its data exactly if it fits. -/
theorem writeOctets_iff (streamId : UInt32) (buf : List Byte) (allows : Prop) [Decidable allows]
    (hnil : buf = [] → allows) :
    (∃ frames, ReadsFrames (dataFrameOctets streamId (UInt32.ofNat buf.length) false ++
        if allows then buf else []) frames ∧ DataFrames streamId frames buf) ↔
      buf.length ≤ HTTP2_MAX_FRAME_SIZE ∧ allows := by
  constructor
  · rintro ⟨frames, hreads, -, hdata⟩
    have hlen := readsFrames_length hreads
    rw [hdata, List.length_append, show (dataFrameOctets streamId _ false).length = 9 by rfl] at hlen
    by_cases hallows : allows
    · rw [if_pos hallows] at hlen
      obtain ⟨frame, rfl⟩ : ∃ frame, frames = [frame] := List.length_eq_one_iff.mp (by omega)
      obtain ⟨rest, hread, -⟩ := hreads
      have hpayload : frame.payload = buf := by simpa using hdata
      exact ⟨hpayload ▸ (readFrame_cut hread).1, hallows⟩
    · rw [if_neg hallows, List.length_nil] at hlen
      have hne : buf ≠ [] := fun h => hallows (hnil h)
      have hpos := List.length_pos_of_ne_nil hne
      obtain rfl : frames = [] := List.eq_nil_of_length_eq_zero (by omega)
      exact absurd hdata.symm hne
  · rintro ⟨hmax, hallows⟩
    rw [HTTP2_MAX_FRAME_SIZE] at hmax
    have hsize : (UInt32.ofNat buf.length).toNat % 2 ^ 24 = buf.length := by
      rw [UInt32.toNat_ofNat']
      omega
    refine ⟨[⟨0, 0, streamId.toNat, buf⟩], ⟨[], ?_, rfl⟩, by simp, by simp⟩
    rw [if_pos hallows, readFrame_head]
    dsimp only
    rw [hsize, if_neg (by rw [HTTP2_MAX_FRAME_SIZE]; omega), if_neg (lt_irrefl _), List.take_length,
      List.drop_length]
    rfl

theorem writeStep_sent {s t : StreamOutput} {buf : List Byte} [Decidable (ThrottleAllows s.out buf)]
    (h : writeStep s buf = some t) :
    t.out.sent = s.out.sent ++ (dataFrameOctets s.streamId (UInt32.ofNat buf.length) false ++
        if ThrottleAllows s.out buf then buf else []) ∧
      t.headers = s.headers ∧ t.streamId = s.streamId ∧ t.written = s.written ++ buf ∧
      CanSend t.out.sends 9 := by
  rw [writeStep] at h
  split_ifs at h with hstep
  obtain ⟨hmax, hsend⟩ := hstep
  obtain ⟨sends', hhead, hrest⟩ := http2DataFrameHead_canSend s.out s.streamId
    (UInt32.ofNat buf.length) false hsend (by omega)
  obtain ⟨hsent, hcan⟩ := mgWrite_canSend
    (http2DataFrameHead s.out s.streamId (UInt32.ofNat buf.length) false) buf
    (n := buf.length + 9) (by rw [hhead]; exact canSend_le hrest (by omega)) hmax (by omega)
  rw [Option.some.injEq] at h
  subst h
  refine ⟨?_, rfl, rfl, rfl, ?_⟩
  · dsimp only
    rw [http2Write, if_neg (by omega), hsent, hhead]
    simp only [throttleAllows_sent]
    split_ifs
    · rw [List.append_assoc]
    · rw [List.append_nil]
  · dsimp only
    rw [http2Write, if_neg (by omega)]
    exact canSend_le hcan (by omega)

theorem writeStep_canEnd (s : StreamOutput) (buf : List Byte) (t : StreamOutput) (hs : CanEnd s)
    (h : writeStep s buf = some t) : CanEnd t := by
  obtain ⟨hsent, hheaders, -, -, hcan⟩ := writeStep_sent h
  refine ⟨?_, hcan⟩
  rw [hheaders, hsent]
  exact hs.1.trans (List.prefix_append _ _)

theorem writeStep_framed (s : StreamOutput) (buf : List Byte) (t : StreamOutput) (hs : CanEnd s)
    (hframed : BodyFramed s) (h : writeStep s buf = some t) : BodyFramed t ↔ WriteFits s buf := by
  obtain ⟨body, frames, hsent, hreads, htype, hdata⟩ := (bodyFramed_iff hs).mp hframed
  obtain ⟨hsent', hheaders, hid, hwritten, -⟩ := writeStep_sent h
  rw [bodyFramed_iff (writeStep_canEnd s buf t hs h), WriteFits,
    ← writeOctets_iff s.streamId buf (ThrottleAllows s.out buf) (fun h => Or.inr (Or.inl h))]
  constructor
  · rintro ⟨body', frames', hbody', hreads', htype', hdata'⟩
    rw [hsent', hheaders, hsent, List.append_assoc] at hbody'
    rw [← List.append_cancel_left hbody'] at hreads'
    obtain ⟨frames'', rfl, hreads''⟩ := readsFrames_of_append hreads hreads'
    refine ⟨frames'', hreads'', ?_, ?_⟩
    · intro frame hframe
      rw [← hid]
      exact htype' frame (List.mem_append_right _ hframe)
    · rw [List.flatMap_append, hdata, hwritten] at hdata'
      exact List.append_cancel_left hdata'
  · rintro ⟨frames'', hreads'', htype'', hdata''⟩
    refine ⟨_, frames ++ frames'', ?_, readsFrames_append hreads hreads'', ?_, ?_⟩
    · rw [hsent', hheaders, hsent, List.append_assoc]
    · rw [hid]
      intro frame hframe
      rcases List.mem_append.mp hframe with hm | hm
      · exact htype frame hm
      · exact htype'' frame hm
    · rw [List.flatMap_append, hdata, hdata'', hwritten]

theorem beginStream_framed (out : Output) (streamId : UInt32) (hsend : CanSend out.sends 9) :
    CanEnd (beginStream out streamId) ∧ BodyFramed (beginStream out streamId) := by
  have hend : CanEnd (beginStream out streamId) := ⟨List.prefix_refl _, hsend⟩
  refine ⟨hend, (bodyFramed_iff hend).mpr ⟨[], [], ?_, rfl, by simp, rfl⟩⟩
  rw [List.append_nil]
  rfl

/-- What a handler writes is sent in well-formed frames, wherever it returns, exactly if every buffer
fits into one frame and is not cut off by the throttle. -/
theorem http2Writes_framed (out : Output) (streamId : UInt32) (bufs : List (List Byte))
    (hsend : CanSend out.sends 9) :
    System.Always writeStep BodyFramed (beginStream out streamId) bufs ↔
      System.Along writeStep WriteFits (beginStream out streamId) bufs := by
  obtain ⟨hend, hframed⟩ := beginStream_framed out streamId hsend
  exact System.always_iff_along writeStep CanEnd BodyFramed WriteFits writeStep_canEnd writeStep_framed
    (beginStream out streamId) bufs hend hframed

/-- A client that takes all, and a throttle of `throttle` bytes with `lastBytes` of them used up. -/
def freshOutput (throttle lastBytes : Int) : Output where
  sends := List.replicate (2 ^ 15) (.accept INT_MAX)
  sent := []
  throttle := throttle
  lastThrottleTime := 1
  lastThrottleBytes := lastBytes
  numBytesSent := 0
  clock := [1, 1]

theorem canSend_replicate (m n : Nat) (h : n ≤ m) :
    CanSend (List.replicate m (.accept INT_MAX)) n := by
  refine ⟨?_, ?_⟩
  · intro e he
    rw [List.eq_of_mem_replicate he]
    rfl
  · rw [List.countP_replicate, if_pos (by decide)]
    exact h

theorem http2Writes_framed_hello :
    CanSend (freshOutput 4 0).sends 9 ∧
      System.Always writeStep BodyFramed (beginStream (freshOutput 4 0) 1) [ascii "hello"] := by
  have hsend : CanSend (freshOutput 4 0).sends 9 := canSend_replicate _ _ (by decide)
  refine ⟨hsend, (http2Writes_framed (freshOutput 4 0) 1 [ascii "hello"] hsend).mpr ?_⟩
  exact fun t _ => ⟨⟨by decide, Or.inr (Or.inr (Or.inl (by decide)))⟩, trivial⟩

/-- A buffer that is too long for a frame, and a single byte where an earlier request of this second has
used up more than the throttle of this one. -/
theorem http2Writes_unframed :
    ¬ System.Always writeStep BodyFramed (beginStream (freshOutput 0 0) 1)
        [List.replicate (HTTP2_MAX_FRAME_SIZE + 1) 0] ∧
      ¬ System.Always writeStep BodyFramed (beginStream (freshOutput 4 8) 1) [[0]] := by
  have hbad (out : Output) (buf : List Byte) (hsend : CanSend out.sends (buf.length + 18))
      (hmax : buf.length ≤ INT_MAX) (h : System.Always writeStep BodyFramed (beginStream out 1) [buf]) :
      WriteFits (beginStream out 1) buf := by
    obtain ⟨hend, hframed⟩ := beginStream_framed out 1 (canSend_le hsend (by omega))
    have hstep : writeStep (beginStream out 1) buf = some _ := if_pos ⟨hmax, hsend⟩
    exact (writeStep_framed _ buf _ hend hframed hstep).mp (h.2 _ hstep)
  refine ⟨fun h => ?_, fun h => ?_⟩
  · have hlen : (List.replicate (HTTP2_MAX_FRAME_SIZE + 1) (0 : Byte)).length =
        HTTP2_MAX_FRAME_SIZE + 1 := List.length_replicate
    have hfits := (hbad _ _ (canSend_replicate _ _ (by rw [hlen]; decide)) (by rw [hlen]; decide) h).1
    rw [hlen] at hfits
    omega
  · have hfits := (hbad _ _ (canSend_replicate _ _ (by decide)) (by decide) h).2
    revert hfits
    decide +kernel

end CivetWeb
