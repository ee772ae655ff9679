import CivetWeb.Http2.FrameReads

namespace CivetWeb

/-- The fixed fields of a frame, with the length of its padding. -/
def Http2Frame.fixedSize (frame : Http2Frame) : Nat :=
  let padLength := if frame.flags &&& 0x08 ≠ 0 then 1 else 0
  match frame.frameType with
  | 0 => padLength
  | 1 => padLength + if frame.flags &&& 0x20 ≠ 0 then 5 else 0
  | 2 => 5
  | 3 => 4
  | 5 => padLength + 4
  | 6 => 8
  | 7 => 8
  | 8 => 4
  | _ => 0

def Http2Frame.padding (frame : Http2Frame) : Nat :=
  if frame.frameType ∈ [0, 1, 5] ∧ frame.flags &&& 0x08 ≠ 0 then (deref frame.payload).toNat else 0

/-- The frame has no room for its fixed fields and its padding, or ends within a setting. -/
def Http2Frame.TooShort (frame : Http2Frame) : Prop :=
  frame.payload.length < frame.fixedSize + frame.padding ∨
    frame.frameType = 4 ∧ frame.flags &&& 0x01 = 0 ∧ frame.payload.length % 6 ≠ 0

instance (frame : Http2Frame) : Decidable frame.TooShort := inferInstanceAs (Decidable (_ ∨ _))

/-- An integer runs over the end of the frame. -/
def IntegerCut (conn : Http2Conn) (frame : Http2Frame) : Prop :=
  ∃ k, (Reader.hpackGetnum, k) ∈ frameReads conn frame ∧ frame.payload.length ≤ k

/-- `handle_http2` ends, or resets the stream that a `SETTINGS` frame is sent on. -/
def TreatedAsError (handler : RequestHandler) (conn : Http2Conn) (frame : Http2Frame) : Prop :=
  http2Frame handler conn frame = none ∨ frame.frameType = 4 ∧ frame.streamId ≠ 0

/-- Nothing but the frame is read, and a frame that is too short is an error. -/
structure ReadsBounded (handler : RequestHandler) (conn : Http2Conn) (frame : Http2Frame) : Prop where
  inside : Inside frame.payload (frameReads conn frame)
  error : frame.TooShort ∨ IntegerCut conn frame → TreatedAsError handler conn frame

/-- The frame is long enough, or a `SETTINGS` frame on a stream; and the integers in a header block end
in the frame, and no Huffman encoded string ends with it. -/
def FrameFits (dynTable : List MgHeader) (frame : Http2Frame) : Prop :=
  (frame.TooShort → frame.frameType = 4 ∧ frame.streamId ≠ 0) ∧
    (frame.frameType = 1 → blockFits frame.payload frame.padding (frame.payload.length + 1) dynTable
      frame.fixedSize = true)

instance (dynTable : List MgHeader) (frame : Http2Frame) : Decidable (FrameFits dynTable frame) :=
  inferInstanceAs (Decidable (_ ∧ _))

theorem fields_inside (payload : List Byte) (n : Nat) :
    Inside payload ((List.range n).map (Prod.mk .handleHttp2)) ↔ n ≤ payload.length := by
  rw [inside_map]
  simp only [List.mem_range]
  constructor
  · intro h
    by_contra hlt
    exact absurd (h payload.length (by omega)) (lt_irrefl _)
  · intro h k hk
    omega

theorem readsBounded_iff (handler : RequestHandler) (conn : Http2Conn) (frame : Http2Frame) :
    ReadsBounded handler conn frame ↔
      Inside frame.payload (frameReads conn frame) ∧
        (frame.TooShort → TreatedAsError handler conn frame) := by
  constructor
  · intro h
    exact ⟨h.inside, fun hshort => h.error (Or.inl hshort)⟩
  · rintro ⟨hinside, herror⟩
    refine ⟨hinside, ?_⟩
    rintro (hshort | ⟨k, hk, hle⟩)
    · exact herror hshort
    · exact absurd (hinside _ hk) (by omega)

/-- The other frames are errors only where their type is not known. -/
theorem treatedAsError_iff (handler : RequestHandler) (conn : Http2Conn) (frame : Http2Frame)
    (htype : frame.frameType ≠ 1) (hknown : frame.frameType ≤ 9) :
    TreatedAsError handler conn frame ↔ frame.frameType = 4 ∧ frame.streamId ≠ 0 := by
  have hsome : http2Frame handler conn frame ≠ none := by
    unfold http2Frame
    dsimp only
    rw [if_neg htype, if_pos hknown]
    exact Option.some_ne_none _
  exact or_iff_right hsome

theorem headersStart_payload (frame : Http2Frame) (stale : List Byte) (htype : frame.frameType = 1)
    (hsize : frame.fixedSize ≤ frame.payload.length) :
    headersStart (frame.payload ++ stale) frame.flags = (frame.padding, frame.fixedSize) := by
  obtain ⟨t, flags, id, payload⟩ := frame
  obtain rfl : t = 1 := htype
  unfold headersStart Http2Frame.padding
  unfold Http2Frame.fixedSize at hsize ⊢
  dsimp only at hsize ⊢
  by_cases hpad : flags &&& 0x08 ≠ 0
  · cases payload with
    | nil => simp [hpad] at hsize
    | cons b payload => simp [hpad, deref]
  · simp [hpad]

/-- A frame that is too short for its padding is handled as a request without headers. -/
theorem headersFrame_padding (handler : RequestHandler) (conn : Http2Conn) (frame : Http2Frame)
    (htype : frame.frameType = 1) (hsize : frame.fixedSize ≤ frame.payload.length)
    (hshort : frame.TooShort) : ¬ TreatedAsError handler conn frame := by
  have hpad : ¬ frame.fixedSize + frame.padding < frame.payload.length := by
    rcases hshort with hshort | ⟨h4, -⟩
    · omega
    · omega
  have hfields : frameFields (frame.payload ++ conn.buf.drop frame.payload.length) frame conn.dynTable =
      some ([], conn.dynTable) := by
    unfold frameFields
    rw [headersStart_payload frame _ htype hsize, blockFields, if_neg hpad]
  obtain ⟨r, conn', hframe, -, -⟩ := headersFrame_some handler
    { conn with buf := frame.payload ++ conn.buf.drop frame.payload.length } frame [] conn.dynTable
    hfields
  rintro (hnone | ⟨h4, -⟩)
  · unfold http2Frame at hnone
    dsimp only at hnone
    rw [if_pos htype, hframe] at hnone
    cases hnone
  · omega

theorem headers_bounded (handler : RequestHandler) (conn : Http2Conn) (frame : Http2Frame)
    (htype : frame.frameType = 1) :
    ReadsBounded handler conn frame ↔ FrameFits conn.dynTable frame := by
  have hreads : frameReads conn frame =
      (List.range (headersStart (frame.payload ++ conn.buf.drop frame.payload.length) frame.flags).2).map
        (Prod.mk .handleHttp2) ++
      blockReads (frame.payload ++ conn.buf.drop frame.payload.length) frame.payload.length
        (headersStart (frame.payload ++ conn.buf.drop frame.payload.length) frame.flags).1
        (frame.payload.length + 1) conn.dynTable
        (headersStart (frame.payload ++ conn.buf.drop frame.payload.length) frame.flags).2 := by
    unfold frameReads
    rw [htype]
    rfl
  have hfixed : (headersStart (frame.payload ++ conn.buf.drop frame.payload.length) frame.flags).2 =
      frame.fixedSize := by
    unfold Http2Frame.fixedSize
    rw [htype]
    rfl
  have hnot4 : ¬ (frame.frameType = 4 ∧ frame.streamId ≠ 0) := by omega
  rw [readsBounded_iff, hreads, inside_append, fields_inside, hfixed, FrameFits]
  by_cases hsize : frame.fixedSize ≤ frame.payload.length
  · rw [headersStart_payload frame _ htype hsize, blockReads_inside]
    by_cases hshort : frame.TooShort
    · have herror := headersFrame_padding handler conn frame htype hsize hshort
      simp [hshort, herror, hnot4]
    · simp [hshort, hsize, htype]
  · have hshort : frame.TooShort := Or.inl (by omega)
    simp [hshort, hsize, hnot4]

/-- The other frames that are known. -/
theorem known_bounded (handler : RequestHandler) (conn : Http2Conn) (frame : Http2Frame)
    (htype : frame.frameType ≠ 1) (hknown : frame.frameType ≤ 9)
    (hinside : ¬ frame.TooShort ∨ frame.frameType = 4 ∧ frame.streamId ≠ 0 →
      Inside frame.payload (frameReads conn frame)) :
    ReadsBounded handler conn frame ↔ FrameFits conn.dynTable frame := by
  rw [readsBounded_iff, treatedAsError_iff handler conn frame htype hknown, FrameFits]
  constructor
  · rintro ⟨-, herror⟩
    exact ⟨herror, fun h1 => absurd h1 htype⟩
  · rintro ⟨herror, -⟩
    refine ⟨hinside ?_, herror⟩
    by_cases hshort : frame.TooShort
    · exact Or.inr (herror hshort)
    · exact Or.inl hshort

theorem unknown_bounded (handler : RequestHandler) (conn : Http2Conn) (frame : Http2Frame)
    (hunknown : 9 < frame.frameType) :
    ReadsBounded handler conn frame ↔ FrameFits conn.dynTable frame := by
  obtain ⟨t, flags, id, payload⟩ := frame
  obtain ⟨t, rfl⟩ : ∃ u, t = u + 10 := ⟨t - 10, by dsimp only at hunknown; omega⟩
  have hfits : ¬ (⟨t + 10, flags, id, payload⟩ : Http2Frame).TooShort := by
    rintro (hshort | ⟨h4, -⟩)
    · simp [Http2Frame.fixedSize, Http2Frame.padding] at hshort
    · dsimp only at h4
      omega
  rw [readsBounded_iff, FrameFits]
  refine iff_of_true ⟨inside_nil, fun hshort => absurd hshort hfits⟩
    ⟨fun hshort => absurd hshort hfits, fun h1 => ?_⟩
  dsimp only at h1
  omega

/-- Nothing but the frame is read, and a frame that is too short is an error, exactly for the frames that
fit. -/
theorem frame_readsBounded (handler : RequestHandler) (conn : Http2Conn) (frame : Http2Frame) :
    ReadsBounded handler conn frame ↔ FrameFits conn.dynTable frame := by
  by_cases htype : frame.frameType = 1
  · exact headers_bounded handler conn frame htype
  by_cases hknown : 9 < frame.frameType
  · exact unknown_bounded handler conn frame hknown
  rw [not_lt] at hknown
  obtain ⟨t, flags, id, payload⟩ := frame
  have hlong (n : Nat) (hsize : (⟨t, flags, id, payload⟩ : Http2Frame).fixedSize = n)
      (h4 : t ≠ 4) (h : ¬ (⟨t, flags, id, payload⟩ : Http2Frame).TooShort ∨ t = 4 ∧ id ≠ 0) :
      n ≤ payload.length := by
    rcases h with h | h
    · unfold Http2Frame.TooShort at h
      rw [hsize] at h
      dsimp only at h
      omega
    · exact absurd h.1 h4
  refine known_bounded handler conn _ htype hknown (fun h => ?_)
  match t with
  | 0 | 5 | 9 => exact inside_nil
  | 1 => exact absurd rfl htype
  | 2 => exact (fields_inside payload 5).mpr (hlong 5 rfl (by decide) h)
  | 3 => exact (fields_inside payload 4).mpr (hlong 4 rfl (by decide) h)
  | 4 =>
    change Inside payload (if id ≠ 0 then [] else if flags ≠ 0 then []
      else (settingsReads payload.length 0).map (Prod.mk .handleHttp2))
    split_ifs with hid hflags
    · exact inside_nil
    · exact inside_nil
    · obtain rfl : flags = 0 := not_not.mp hflags
      have hack : (0 : Byte) &&& 0x01 = 0 := by decide
      refine inside_map.mpr ((settingsReads_inside _ 0).mpr (Or.inr ?_))
      rcases h with h | h
      · by_contra hsize
        exact h (Or.inr ⟨rfl, hack, hsize⟩)
      · exact absurd h.2 hid
  | 6 =>
    change Inside payload (if flags = 0 then (List.range payload.length).map (Prod.mk .handleHttp2)
      else [])
    split_ifs
    · exact (fields_inside payload _).mpr (le_refl _)
    · exact inside_nil
  | 7 => exact (fields_inside payload 8).mpr (hlong 8 rfl (by decide) h)
  | 8 => exact (fields_inside payload 4).mpr (hlong 4 rfl (by decide) h)
  | t + 10 =>
    dsimp only at hknown
    omega

/-- The first four bytes of a `PRIORITY` frame, without its weight. -/
def shortPriority : Http2Frame := ⟨2, 0, 1, [0, 0, 0, 0]⟩

/-- A `HEADERS` frame with `:path` and a Huffman encoded `/` that ends with it. -/
def huffmanHeaders : Http2Frame := ⟨1, 5, 1, [0x82, 0x44, 0x81, 0x63]⟩

theorem frame_readsBehind :
    ¬ ReadsBounded (splitUri false) freshHttp2 shortPriority ∧
      ¬ ReadsBounded (splitUri false) freshHttp2 huffmanHeaders := by
  refine ⟨fun h => ?_, fun h => ?_⟩
  · exact absurd (h.inside (.handleHttp2, 4) (by decide)) (by decide)
  · exact absurd (h.inside (.hpackDecode, 4) (by decide +kernel)) (by decide)

end CivetWeb
