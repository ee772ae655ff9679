import CivetWeb.Http2.HeaderBlock

namespace CivetWeb

open Hpack

/-! ### What the representations mean -/

def statusRep (status : Nat) : Rep :=
  match status with
  | 200 => .indexed 8
  | 204 => .indexed 9
  | 206 => .indexed 10
  | 304 => .indexed 11
  | 400 => .indexed 12
  | 404 => .indexed 13
  | 500 => .indexed 14
  | _ => .literal .incremental (.index 8) ⟨false, decText status⟩

def dateRep (date : List Byte) : Rep := .literal .incremental (.index 33) ⟨false, date⟩

def sentField (h : MgHeader) : Field := ⟨h.name.map tolower, h.value⟩

theorem statusBytes_encode (status : Nat) (h : 100 ≤ status ∧ status ≤ 999) :
    statusBytes status = (statusRep status).encode := by
  unfold statusBytes
  split
  case h_8 =>
    have hrep : statusRep status = .literal .incremental (.index 8) ⟨false, decText status⟩ := by
      unfold statusRep
      split
      all_goals first
        | contradiction
        | rfl
    rw [hrep, decText_three status h]
    rfl
  all_goals rfl

theorem statusRep_means (limit status : Nat) :
    (statusRep status).Means limit ⟨ascii ":status", decText status⟩ := by
  intro t
  unfold statusRep
  split
  all_goals exact ⟨_, rfl⟩

theorem dateRep_means (limit : Nat) (date : List Byte) :
    (dateRep date).Means limit ⟨ascii "date", date⟩ := fun _ => ⟨_, rfl⟩

theorem predefined_lower : ∀ i : Fin 62, i.val ≠ 0 →
    (((hpackPredefined[i.val]?).bind Prod.fst).getD []).map tolower =
        ((hpackPredefined[i.val]?).bind Prod.fst).getD [] ∧
      NUL ∉ ((hpackPredefined[i.val]?).bind Prod.fst).getD [] ∧
      ((hpackPredefined[i.val]?).bind Prod.fst).isSome = true := by
  simp only [Fin.forall_fin_succ]
  and_intros
  all_goals decide +kernel

/-- The name that a known header has in the table of the code. -/
theorem predefinedIndex_name (name : List Byte) (hname : NUL ∉ name) (h : predefinedIndex name ≠ 0) :
    (hpackPredefined[predefinedIndex name]?).bind Prod.fst = some (name.map tolower) := by
  rcases predefinedIndex_cases name with h0 | ⟨-, h61, heq⟩
  · exact absurd h0 h
  · obtain ⟨hlower, hnul, hsome⟩ := predefined_lower ⟨predefinedIndex name, by omega⟩ h
    rw [mgStrcasecmp_eq_zero _ _ hnul hname, hlower] at heq
    obtain ⟨n, hn⟩ := Option.isSome_iff_exists.mp hsome
    rw [hn, Option.getD_some] at heq
    rw [hn, heq]

/-- The name that it has in the table of the RFC. -/
theorem static_name (name : List Byte) (hname : NUL ∉ name) (h : predefinedIndex name ≠ 0) (t : Table) :
    t.name? (.index (predefinedIndex name)) = some (name.map tolower) ↔
      predefinedIndex name ≠ 25 ∧ predefinedIndex name ≠ 26 := by
  have h61 : predefinedIndex name ≤ 61 := by
    rcases predefinedIndex_cases name with h0 | ⟨-, h61, -⟩
    · omega
    · exact h61
  have hiff := predefined_name ⟨predefinedIndex name, by omega⟩ h
  rw [predefinedIndex_name name hname h] at hiff
  rw [Table.name?, field?_static t _ h h61, ← hiff, eq_comm]

theorem headerRep_means (limit : Nat) {cur : Cursor} (h : MgHeader) (hname : NUL ∉ h.name)
    (hfits : cur.Fits h) : (headerRep h).Means limit (sentField h) := by
  intro t
  rw [headerRep]
  split_ifs with hpredef
  · obtain ⟨-, -, hplaces⟩ := hfits
    rw [if_pos hpredef] at hplaces
    have hstatic := (static_name h.name hname hpredef t).mpr ⟨hplaces.1, hplaces.2.1⟩
    rw [Table.decode, hstatic, Option.map_some]
    exact ⟨_, rfl⟩
  · exact ⟨_, rfl⟩

theorem headersFit_means (limit : Nat) {cur : Cursor} (hs : List MgHeader)
    (hnames : ∀ h ∈ hs, NUL ∉ h.name) (hfit : HeadersFit cur hs) :
    List.Forall₂ (Rep.Means limit) (hs.map headerRep) (hs.map sentField) := by
  induction hs generalizing cur with
  | nil => exact .nil
  | cons h hs ih =>
    obtain ⟨hname, hrest⟩ := List.forall_mem_cons.mp hnames
    exact .cons (headerRep_means limit h hname hfit.1) (ih hrest hfit.2)

theorem headerRep_named (h : MgHeader) : (headerRep h).Named := by
  rw [headerRep]
  split_ifs with hpredef
  · exact fun h0 => hpredef (Name.index.inj h0)
  · exact Name.noConfusion

theorem statusRep_named (status : Nat) : (statusRep status).Named := by
  unfold statusRep
  split
  all_goals simp [Rep.Named]

theorem dateRep_named (date : List Byte) : (dateRep date).Named := by simp [dateRep, Rep.Named]

theorem dateRep_encode (date : List Byte) (h : date.length < 64) :
    (dateRep date).encode = dateBytes date := by
  have hbody : (Literal.mk false date).body = date := rfl
  rw [dateRep, Rep.encode, Literal.encode, hbody, encodeInt, encodeInt, if_pos (by decide),
    if_pos (by omega), dateBytes]
  simp [Name.encode, Name.entry, Indexing.flags]

/-! ### The header list -/

theorem lower_connection (name : List Byte) (hname : NUL ∉ name) :
    mgStrcasecmp (ascii "Connection") name = 0 ↔ name.map tolower = ascii "connection" := by
  rw [mgStrcasecmp_eq_zero _ _ (by decide) hname, eq_comm]
  rfl

theorem sentHeaders_fields (headers : List MgHeader) (hnames : ∀ h ∈ headers, NUL ∉ h.name) :
    (headers.map sentField).filter (fun f => f.name ≠ ascii "connection") =
      (sentHeaders headers).map sentField := by
  induction headers with
  | nil => rfl
  | cons h headers ih =>
    obtain ⟨hname, hrest⟩ := List.forall_mem_cons.mp hnames
    have hconn := lower_connection h.name hname
    rw [sentHeaders, List.map_cons, List.filter_cons, List.filter_cons, ih hrest]
    by_cases hc : h.name.map tolower = ascii "connection"
    · simp [sentField, hc, hconn.mpr hc, sentHeaders]
    · have hne := mt hconn.mp hc
      simp [sentField, hc, hne, sentHeaders]

theorem sentHeaders_date (hs : List MgHeader) (hnames : ∀ h ∈ hs, NUL ∉ h.name) :
    (∃ f ∈ hs.map sentField, f.name = ascii "date") ↔ hasHeader (ascii "Date") hs = true := by
  rw [hasHeader_iff _ _ (by decide) hnames, named]
  simp only [List.mem_map, exists_exists_and_eq_and]
  rfl

theorem sentHeaders_names {headers : List MgHeader} (hnames : ∀ h ∈ headers, NUL ∉ h.name) :
    ∀ h ∈ sentHeaders headers, NUL ∉ h.name := fun h hh => hnames h (List.mem_of_mem_filter hh)

/-- The fields of a response by the headers that are sent. -/
theorem responseFields_eq (statusCode : Int) (headers : List MgHeader) (date : List Byte)
    (hnames : ∀ h ∈ headers, NUL ∉ h.name) : responseFields statusCode headers date =
      ⟨ascii ":status", decText statusCode.toNat⟩ :: ((sentHeaders headers).map sentField ++
        if hasHeader (ascii "Date") (sentHeaders headers) then [] else [⟨ascii "date", date⟩]) := by
  have hfields := sentHeaders_fields headers hnames
  have hdate := sentHeaders_date (sentHeaders headers) (sentHeaders_names hnames)
  unfold responseFields
  dsimp only
  rw [show (headers.map fun h => (⟨h.name.map tolower, h.value⟩ : Field)) = headers.map sentField from rfl,
    hfields]
  simp only [hdate]

/-! ### The frame -/

theorem sentStatus_eq {statusCode : Int} (h : 100 ≤ statusCode ∧ statusCode ≤ 999) :
    sentStatus statusCode = statusCode.toNat := if_neg (by omega)

theorem statusBytes_rep {statusCode : Int} (h : 100 ≤ statusCode ∧ statusCode ≤ 999) :
    statusBytes (sentStatus statusCode) = (statusRep statusCode.toNat).encode := by
  rw [sentStatus_eq h]
  exact statusBytes_encode statusCode.toNat (by omega)

theorem statusBytes_length (status : Nat) : (statusBytes status).length ≤ 5 := by
  unfold statusBytes
  split
  all_goals simp

theorem status_filled (stack : List Byte) (hstack : stack.length = HEADER_BIN_LEN) (status : Nat) :
    ∃ bin, putBytes stack 0 (statusBytes status) = some bin ∧
      Filled stack bin ⟨(statusBytes status).length, 0⟩ (statusBytes status) := by
  have hlen := statusBytes_length status
  obtain ⟨bin, hput, hfilled⟩ := putBytes_filled (filled_stack stack) (statusBytes status)
    (by rw [hstack, HEADER_BIN_LEN]; dsimp only; omega)
  refine ⟨bin, hput, ?_⟩
  rw [Cursor.bytes, Nat.zero_add, List.nil_append] at hfilled
  exact hfilled

/-- The end of a header block, behind the headers. -/
def withDate (bin : List Byte) (len : Nat) (hasDate : Bool) (date : List Byte) : Option (List Byte) :=
  if hasDate then some (bin.take len)
  else (putBytes bin len (dateBytes date)).map fun bin => bin.take (len + (dateBytes date).length)

theorem headerBlock_withDate (stack : List Byte) (statusCode : Int) (headers : List MgHeader)
    (date : List Byte) : headerBlock stack statusCode headers date =
      (putBytes stack 0 (statusBytes (sentStatus statusCode))).bind fun bin =>
        (addAllHeaders (sentHeaders headers) bin (statusBytes (sentStatus statusCode)).length).bind
          fun (bin, len) => withDate bin len (hasHeader (ascii "Date") (sentHeaders headers)) date := rfl

theorem withDate_eq {bin : List Byte} {len : Nat} (hlen : len ≤ bin.length) (hasDate : Bool)
    (date : List Byte) : withDate bin len hasDate date =
      if hasDate = true ∨ len + (dateBytes date).length ≤ bin.length then
        some (bin.take len ++ if hasDate then [] else dateBytes date)
      else none := by
  have htake : (bin.take len).length = len := by
    rw [List.length_take]
    omega
  cases hasDate with
  | true => simp [withDate]
  | false =>
    simp only [withDate, putBytes, Bool.false_eq_true, if_false, false_or]
    split_ifs with hroom
    · rw [Option.map_some, List.take_left' (by rw [List.length_append, htake])]
    · rfl

/-- What the headers that fit leave in the buffer. -/
theorem headers_filled {stack : List Byte} (hstack : stack.length = HEADER_BIN_LEN) {statusCode : Int}
    (hstatus : 100 ≤ statusCode ∧ statusCode ≤ 999) (hs : List MgHeader) (hnames : ∀ h ∈ hs, NUL ∉ h.name)
    (hfit : HeadersFit ⟨(statusBytes (sentStatus statusCode)).length, 0⟩ hs) :
    ∃ bin bin', putBytes stack 0 (statusBytes (sentStatus statusCode)) = some bin ∧
      addAllHeaders hs bin (statusBytes (sentStatus statusCode)).length =
        some (bin', (headersCursor statusCode hs).len) ∧
      Filled stack bin' (headersCursor statusCode hs)
        (encodeBlock (statusRep statusCode.toNat :: hs.map headerRep)) := by
  obtain ⟨bin, hput, hfilled⟩ := status_filled stack hstack (sentStatus statusCode)
  obtain ⟨bin', hadd, hfilled'⟩ := addAllHeaders_fit hfilled hstack hs hnames hfit
  refine ⟨bin, bin', hput, hadd, ?_⟩
  rw [encodeBlock, List.flatMap_cons, ← statusBytes_rep hstatus]
  exact hfilled'

/-- The block of headers that can be encoded. -/
theorem headerBlock_encodable {stack : List Byte} (hstack : stack.length = HEADER_BIN_LEN)
    {statusCode : Int} (hstatus : 100 ≤ statusCode ∧ statusCode ≤ 999) {headers : List MgHeader}
    (hnames : ∀ h ∈ headers, NUL ∉ h.name) {date : List Byte} (hdate : date.length < 64)
    (henc : Encodable statusCode date headers) :
    ∃ block, headerBlock stack statusCode headers date = some block ∧ block.length ≤ HEADER_BIN_LEN ∧
      block = encodeBlock (statusRep statusCode.toNat :: ((sentHeaders headers).map headerRep ++
        if hasHeader (ascii "Date") (sentHeaders headers) then [] else [dateRep date])) := by
  obtain ⟨hfit, hroom⟩ := henc
  obtain ⟨bin, bin', hput, hadd, hfilled⟩ :=
    headers_filled hstack hstatus _ (sentHeaders_names hnames) hfit
  have hbin' : bin'.length = HEADER_BIN_LEN := hfilled.length.trans hstack
  have hlen : (headersCursor statusCode (sentHeaders headers)).len ≤ bin'.length :=
    hfilled.room.trans_eq hfilled.length.symm
  have hwith := withDate_eq hlen (hasHeader (ascii "Date") (sentHeaders headers)) date
  rw [if_pos (by rw [hbin']; exact hroom), hfilled.taken] at hwith
  have hblock : headerBlock stack statusCode headers date =
      some (encodeBlock (statusRep statusCode.toNat :: (sentHeaders headers).map headerRep) ++
        if hasHeader (ascii "Date") (sentHeaders headers) then [] else dateBytes date) := by
    rw [headerBlock_withDate, hput, Option.bind_some, hadd, Option.bind_some]
    exact hwith
  refine ⟨_, hblock, ?_, ?_⟩
  · rw [List.length_append, hfilled.written]
    split_ifs at hroom ⊢ with hgiven
    · exact hlen.trans_eq hbin'
    · exact hroom.resolve_left hgiven
  · rw [encodeBlock, encodeBlock, ← List.cons_append, List.flatMap_append]
    split_ifs
    · rfl
    · rw [List.flatMap_singleton, dateRep_encode date hdate]

theorem headerFrameOctets_length (streamId headerLen : UInt32) :
    (headerFrameOctets streamId headerLen).length = 9 := rfl

theorem readFrame_headers (streamId : UInt32) (block : List Byte) (h : block.length ≤ HEADER_BIN_LEN) :
    readFrame (headerFrameOctets streamId (UInt32.ofNat block.length) ++ block) =
      some (⟨1, 4, streamId.toNat, block⟩, []) := by
  rw [HEADER_BIN_LEN] at h
  have hlen : (UInt32.ofNat block.length).toNat = block.length := by
    rw [UInt32.toNat_ofNat']
    exact Nat.mod_eq_of_lt (by omega)
  obtain ⟨-, -, hs1, hs0⟩ := word_octets (UInt32.ofNat block.length)
  obtain ⟨hi3, hi2, hi1, hi0⟩ := word_octets streamId
  have hid : streamId.toNat % 2 ^ 32 = streamId.toNat := Nat.mod_eq_of_lt streamId.toNat_lt
  have hsize : block.length / 2 ^ 8 % 256 * 0x100 + block.length % 256 = block.length := by omega
  simp only [headerFrameOctets, List.cons_append, List.nil_append, readFrame, hs1, hs0, hi3, hi2, hi1,
    hi0, octets_value, hid, hlen, UInt8.toNat_zero, Nat.zero_mul, Nat.zero_add, hsize]
  rw [if_neg (by rw [HTTP2_MAX_FRAME_SIZE]; omega), if_neg (Nat.lt_irrefl _), List.take_length,
    List.drop_length]
  rfl

/-- The frame of a block goes out where the connection can send. -/
theorem sendResponseHeaders_block {stack : List Byte} {out : Output} (streamId : UInt32) {statusCode : Int}
    {headers : List MgHeader} {date block : List Byte}
    (hblock : headerBlock stack statusCode headers date = some block)
    (hlen : block.length ≤ HEADER_BIN_LEN) (hsend : CanSend out.sends (9 + HEADER_BIN_LEN)) :
    ∃ out', http2SendResponseHeaders stack out streamId statusCode headers date = some (true, out') ∧
      out'.sent = out.sent ++ (headerFrameOctets streamId (UInt32.ofNat block.length) ++ block) := by
  obtain ⟨sends, hpush, hsend'⟩ := pushAll_canSend out
    (headerFrameOctets streamId (UInt32.ofNat block.length)) hsend (Nat.le_add_right 9 _)
  obtain ⟨sends', hpush', -⟩ := pushAll_canSend
    { out with
      sends := sends
      sent := out.sent ++ (headerFrameOctets streamId (UInt32.ofNat block.length)).take 9 }
    block hsend' (hlen.trans (Nat.le_sub_of_add_le (Nat.add_comm 9 _).ge))
  have hsent : http2SendResponseHeaders stack out streamId statusCode headers date =
      some (true, { out with
        sends := sends'
        sent := out.sent ++ (headerFrameOctets streamId (UInt32.ofNat block.length)).take 9 ++
          block.take block.length }) := by
    unfold http2SendResponseHeaders
    rw [hblock, Option.map_some]
    dsimp only
    rw [show (9 : Int) = ((9 : Nat) : Int) from rfl, hpush]
    dsimp only
    rw [if_neg (not_not.mpr rfl), hpush']
    dsimp only
    rw [if_neg (not_not.mpr rfl)]
  refine ⟨_, hsent, ?_⟩
  rw [List.take_length, List.append_assoc,
    List.take_of_length_le (headerFrameOctets_length streamId _).le]

/-- Headers that can be encoded are sent. -/
theorem headersSent_encodable {streamId : UInt32} {date : List Byte} {c : ResponseConn}
    (hdate : date.length < 64) (hstatus : 100 ≤ c.statusCode ∧ c.statusCode ≤ 999)
    (hsend : CanSend c.out.sends (9 + HEADER_BIN_LEN)) (hnames : ∀ h ∈ c.responseHeaders, NUL ∉ h.name)
    (henc : Encodable c.statusCode date c.responseHeaders) : HeadersSent streamId date c := by
  intro stack hstack
  obtain ⟨block, hblock, hlen, hreps⟩ := headerBlock_encodable hstack hstatus hnames hdate henc
  obtain ⟨out', hrun, hsent⟩ := sendResponseHeaders_block streamId hblock hlen hsend
  refine ⟨true, out', hrun, ?_⟩
  refine ⟨_, block, hsent, readFrame_headers streamId block hlen, ?_⟩
  intro t
  have hmeans : List.Forall₂ (Rep.Means HTTP2_HEADER_TABLE_SIZE)
      (statusRep c.statusCode.toNat :: ((sentHeaders c.responseHeaders).map headerRep ++
        if hasHeader (ascii "Date") (sentHeaders c.responseHeaders) then [] else [dateRep date]))
      (responseFields c.statusCode c.responseHeaders date) := by
    rw [responseFields_eq _ _ _ hnames]
    refine .cons (statusRep_means _ _) (List.rel_append
      (headersFit_means _ _ (sentHeaders_names hnames) henc.1) ?_)
    split_ifs
    · exact .nil
    · exact .cons (dateRep_means _ date) .nil
  obtain ⟨t', ht'⟩ := decodeBlock_means hmeans t
  refine ⟨t', _, ?_, ht'⟩
  rw [hreps]
  refine readsBlock_encode _ ?_
  intro r hr
  rcases List.mem_cons.mp hr with rfl | hr
  · exact statusRep_named _
  rcases List.mem_append.mp hr with hr | hr
  · obtain ⟨h, -, rfl⟩ := List.mem_map.mp hr
    exact headerRep_named h
  · split_ifs at hr
    · cases hr
    · rw [List.mem_singleton.mp hr]
      exact dateRep_named date

end CivetWeb
