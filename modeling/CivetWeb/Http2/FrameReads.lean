import CivetWeb.Http2.Isolation

namespace CivetWeb

/-! ### What is read of the frame buffer -/

/-- The function that reads a byte of the frame buffer. -/
inductive Reader where
  | handleHttp2
  | hpackGetnum
  | hpackDecode
  deriving DecidableEq, Repr

/-- The indices that the loop of `hpack_getnum` reads from `i` on. -/
def getnumLoopReads : List Byte → Nat → List Nat
  | [], i => [i]
  | b :: s, i => i :: if b &&& 0x80 = 0x80 then getnumLoopReads s (i + 1) else []

def getnumReads (buf : List Byte) (i : Nat) (idxMask : Byte) : List Nat :=
  i ::
    match buf.drop i with
    | [] => []
    | b :: s => if b &&& idxMask = idxMask then getnumLoopReads s (i + 1) else []

/-- The bits that the Huffman part of `hpack_decode` reads, `bitRead` of them being read already. The
bit behind the last one is read before `bitRead > bit_len` is tested. -/
def huffReads : Nat → Nat → List Bool → List Byte → List Nat
  | 0, _, _, _ => []
  | turns + 1, bitRead, bits, str =>
    match huffCollect 0 0 bits with
    | none => List.range' bitRead (bits.length + 1)
    | some (accu, bc, bits) =>
      let str := str ++ ((huffFind accu bc).map HuffDec.decoded).toList
      List.range' bitRead bc ++
        if str.length = HUFF_STR_LEN then [] else huffReads turns (bitRead + bc) bits str

def decodeReads (buf : List Byte) (i maxI : Nat) : List (Reader × Nat) :=
  (.hpackDecode, i) :: (getnumReads buf i 0x7F).map (Prod.mk .hpackGetnum) ++
    match buf[i]?, hpackGetnum buf i 0x7F with
    | some b, some (byteLen, i) =>
      if 1024 < byteLen then []
      else if maxI < i + byteLen then []
      else if b &&& 0x80 = 0x80 then
        (huffReads (8 * byteLen + 1) 0 (Bits.ofOctets ((buf.drop i).take byteLen)) []).map
          (fun bitRead => (.hpackDecode, i + bitRead / 8))
      else (List.range' i byteLen).map (Prod.mk .hpackDecode)
    | _, _ => []

def headerFieldReads (dynTable : List MgHeader) (buf : List Byte) (bytesRead i : Nat) (idxMask : Byte)
    (valueKnown : Bool) : List (Reader × Nat) :=
  (getnumReads buf i idxMask).map (Prod.mk .hpackGetnum) ++
    match hpackGetnum buf i idxMask with
    | none => []
    | some (idx, i) =>
      (if idx = 0 then decodeReads buf i bytesRead else []) ++
        match headerKey dynTable buf bytesRead idx i with
        | none => []
        | some (_, i) => if valueKnown then [] else decodeReads buf i bytesRead

/-- One turn of the loop over a header block. -/
def nextHeaderReads (dynTable : List MgHeader) (buf : List Byte) (bytesRead i : Nat) :
    List (Reader × Nat) :=
  (.handleHttp2, i) ::
    match buf[i]? with
    | none => []
    | some b =>
      if b &&& 0x80 = 0x80 then headerFieldReads dynTable buf bytesRead i 0x7F true
      else if b &&& 0xC0 = 0x40 then headerFieldReads dynTable buf bytesRead i 0x3F false
      else if b &&& 0xF0 = 0x00 then headerFieldReads dynTable buf bytesRead i 0x0F false
      else if b &&& 0xF0 = 0x10 then headerFieldReads dynTable buf bytesRead i 0x0F false
      else if b &&& 0xE0 = 0x20 then (getnumReads buf i 0x1F).map (Prod.mk .hpackGetnum)
      else []

def blockReads (buf : List Byte) (size padding : Nat) : Nat → List MgHeader → Nat → List (Reader × Nat)
  | 0, _, _ => []
  | turns + 1, dynTable, i =>
    if i + padding < size then
      nextHeaderReads dynTable buf size i ++
        match nextHeader dynTable buf size i with
        | none => []
        | some (_, dynTable, i) => blockReads buf size padding turns dynTable i
    else []

/-- The loop over the settings of a `SETTINGS` frame. -/
def settingsReads (size i : Nat) : List Nat :=
  if i < size then List.range' i 6 ++ settingsReads size (i + 6) else []
termination_by size - i

/-- The indices of the frame buffer that are read in a turn of the loop of `handle_http2`. -/
def frameReads (conn : Http2Conn) (frame : Http2Frame) : List (Reader × Nat) :=
  let size := frame.payload.length
  let buf := frame.payload ++ conn.buf.drop size
  let fields (n : Nat) : List (Reader × Nat) := (List.range n).map (Prod.mk .handleHttp2)
  match frame.frameType with
  | 1 =>
    let (padding, i) := headersStart buf frame.flags
    fields i ++ blockReads buf size padding (size + 1) conn.dynTable i
  | 2 => fields 5
  | 3 => fields 4
  | 4 =>
    if frame.streamId ≠ 0 then []
    else if frame.flags ≠ 0 then []
    else (settingsReads size 0).map (Prod.mk .handleHttp2)
  | 6 => if frame.flags = 0 then fields size else []
  | 7 => fields 8
  | 8 => fields 4
  | _ => []

/-! ### What fits into a frame -/

/-- The length of a string ends in the payload, and a Huffman encoded one does not end with it. -/
def stringFits (payload : List Byte) (i : Nat) : Bool :=
  match payload[i]?, hpackGetnum payload i 0x7F with
  | some b, some (byteLen, i) =>
    !(decide (b &&& 0x80 = 0x80) && decide (byteLen ≤ 1024) && decide (i + byteLen = payload.length))
  | _, _ => false

/-- The index of a header field ends in the payload, and its strings fit. -/
def fieldFits (dynTable : List MgHeader) (payload : List Byte) (i : Nat) (idxMask : Byte)
    (valueKnown : Bool) : Bool :=
  match hpackGetnum payload i idxMask with
  | none => false
  | some (idx, i) =>
    (idx != 0 || stringFits payload i) &&
      match headerKey dynTable payload payload.length idx i with
      | none => true
      | some (_, i) => valueKnown || stringFits payload i

def entryFits (dynTable : List MgHeader) (payload : List Byte) (i : Nat) : Bool :=
  match payload[i]? with
  | none => false
  | some b =>
    if b &&& 0x80 = 0x80 then fieldFits dynTable payload i 0x7F true
    else if b &&& 0xC0 = 0x40 then fieldFits dynTable payload i 0x3F false
    else if b &&& 0xF0 = 0x00 then fieldFits dynTable payload i 0x0F false
    else if b &&& 0xF0 = 0x10 then fieldFits dynTable payload i 0x0F false
    else if b &&& 0xE0 = 0x20 then (hpackGetnum payload i 0x1F).isSome
    else true

/-- The entries of a header block fit, up to the first one that cannot be decoded. -/
def blockFits (payload : List Byte) (padding : Nat) : Nat → List MgHeader → Nat → Bool
  | 0, _, _ => true
  | turns + 1, dynTable, i =>
    if i + padding < payload.length then
      entryFits dynTable payload i &&
        match nextHeader dynTable payload payload.length i with
        | none => true
        | some (_, dynTable, i) => blockFits payload padding turns dynTable i
    else true

/-! ### Integers and strings -/

theorem getnumLoopReads_inside (s stale : List Byte) (i num m used : Nat) :
    (∀ k ∈ getnumLoopReads (s ++ stale) i, k < i + s.length) ↔
      (hpackGetnumLoop s num m used).isSome = true := by
  induction s generalizing i num m used with
  | nil =>
    have hhead : i ∈ getnumLoopReads ([] ++ stale) i := by
      cases stale <;> simp [getnumLoopReads]
    constructor
    · intro h
      exact absurd (h i hhead) (lt_irrefl _)
    · intro h
      cases h
  | cons b s ih =>
    rw [List.cons_append, getnumLoopReads, hpackGetnumLoop, List.forall_mem_cons, List.length_cons]
    split_ifs with hmore
    · have hrest := ih (i + 1) ((num + shiftedInt (b &&& 0x7F).toNat m) % 2 ^ 64) (m + 7) (used + 1)
      rw [← hrest, show i + 1 + s.length = i + (s.length + 1) by omega]
      exact and_iff_right (by omega)
    · simp

theorem getnumReads_inside (payload stale : List Byte) (i : Nat) (mask : Byte) :
    (∀ k ∈ getnumReads (payload ++ stale) i mask, k < payload.length) ↔
      (hpackGetnum payload i mask).isSome = true := by
  unfold getnumReads hpackGetnum
  rw [List.forall_mem_cons]
  cases hdrop : payload.drop i with
  | nil =>
    have hle : payload.length ≤ i := List.drop_eq_nil_iff.mp hdrop
    constructor
    · rintro ⟨h, -⟩
      omega
    · intro h
      cases h
  | cons b s =>
    have hlen := congrArg List.length hdrop
    rw [List.length_drop, List.length_cons] at hlen
    have hi : i ≤ payload.length := by omega
    rw [List.drop_append_of_le_length hi, hdrop, List.cons_append]
    dsimp only
    split_ifs with hmask
    · rw [Option.isSome_map, ← getnumLoopReads_inside s stale (i + 1) (b &&& mask).toNat 0 0,
        show i + 1 + s.length = payload.length by omega]
      exact and_iff_right (by omega)
    · have hlt : i < payload.length := by omega
      simp [hlt]

theorem huffCollect_length (accu bc a k : Nat) (bits left : List Bool)
    (h : huffCollect accu bc bits = some (a, k, left)) :
    k + left.length = bc + bits.length ∧ 5 ≤ k := by
  induction bits generalizing accu bc with
  | nil => cases h
  | cons b bits ih =>
    unfold huffCollect at h
    dsimp only at h
    split_ifs at h with hmore
    · obtain ⟨hlen, hk⟩ := ih _ _ h
      exact ⟨by rw [List.length_cons]; omega, hk⟩
    · rw [Option.some.injEq, Prod.mk.injEq, Prod.mk.injEq] at h
      obtain ⟨-, rfl, rfl⟩ := h
      exact ⟨by rw [List.length_cons]; omega, by omega⟩

/-- A string that is short enough is read to the bit behind its last one. -/
theorem huffReads_end (turns bitRead : Nat) (bits : List Bool) (str : List Byte)
    (hturns : bits.length < turns) (hroom : 5 * str.length + bits.length < 5 * HUFF_STR_LEN) :
    (∀ k ∈ huffReads turns bitRead bits str, k ≤ bitRead + bits.length) ∧
      bitRead + bits.length ∈ huffReads turns bitRead bits str := by
  induction turns generalizing bitRead bits str with
  | zero => omega
  | succ turns ih =>
    rw [huffReads]
    cases hcollect : huffCollect 0 0 bits with
    | none =>
      dsimp only
      simp only [List.mem_range'_1]
      exact ⟨fun k hk => by omega, by omega, by omega⟩
    | some r =>
      obtain ⟨accu, bc, left⟩ := r
      obtain ⟨hlen, hbc⟩ := huffCollect_length 0 0 accu bc bits left hcollect
      dsimp only
      generalize hchar : ((huffFind accu bc).map HuffDec.decoded).toList = char
      have hone : char.length ≤ 1 := by
        rw [← hchar]
        cases (huffFind accu bc).map HuffDec.decoded <;> simp
      have hroom' : 5 * (str ++ char).length + left.length < 5 * HUFF_STR_LEN := by
        rw [List.length_append]
        omega
      obtain ⟨hle, hmem⟩ := ih (bitRead + bc) left (str ++ char) (by omega) hroom'
      rw [if_neg (by omega)]
      constructor
      · intro k hk
        rcases List.mem_append.mp hk with hk | hk
        · rw [List.mem_range'_1] at hk
          omega
        · have := hle k hk
          omega
      · refine List.mem_append_right _ ?_
        rw [show bitRead + bits.length = bitRead + bc + left.length by omega]
        exact hmem

/-- Every read of the list is one of the payload. -/
def Inside (payload : List Byte) (reads : List (Reader × Nat)) : Prop :=
  ∀ r ∈ reads, r.2 < payload.length

theorem inside_cons {payload : List Byte} {r : Reader × Nat} {reads : List (Reader × Nat)} :
    Inside payload (r :: reads) ↔ r.2 < payload.length ∧ Inside payload reads := List.forall_mem_cons

theorem inside_append {payload : List Byte} {reads reads' : List (Reader × Nat)} :
    Inside payload (reads ++ reads') ↔ Inside payload reads ∧ Inside payload reads' :=
  List.forall_mem_append

theorem inside_map {payload : List Byte} {reader : Reader} {reads : List Nat} :
    Inside payload (reads.map (Prod.mk reader)) ↔ ∀ k ∈ reads, k < payload.length :=
  List.forall_mem_map

theorem inside_nil {payload : List Byte} : Inside payload [] := by
  rintro r ⟨⟩

section Reads
variable (dynTable : List MgHeader) (payload stale : List Byte)

theorem getElem_payload {i : Nat} {b : Byte} (h : payload[i]? = some b) :
    i < payload.length ∧ (payload ++ stale)[i]? = some b := by
  obtain ⟨hi, -⟩ := List.getElem?_eq_some_iff.mp h
  rw [List.getElem?_append_left hi]
  exact ⟨hi, h⟩

/-- The reads of the bits of a string of `n` bytes at `j`. -/
theorem huffReads_inside (data : List Byte) (j : Nat) (hdata : data.length ≤ 1024)
    (hj : j + data.length ≤ payload.length) :
    Inside payload ((huffReads (8 * data.length + 1) 0 (Bits.ofOctets data) []).map
      (fun bitRead => (.hpackDecode, j + bitRead / 8))) ↔ j + data.length ≠ payload.length := by
  have hlen := Bits.ofOctets_length data
  obtain ⟨hle, hmem⟩ := huffReads_end (8 * data.length + 1) 0 (Bits.ofOctets data) []
    (by rw [hlen]; omega) (by rw [hlen, HUFF_STR_LEN, List.length_nil]; omega)
  rw [hlen] at hle hmem
  unfold Inside
  rw [List.forall_mem_map]
  dsimp only
  constructor
  · intro h
    have hlast := h _ hmem
    omega
  · intro hne k hk
    have hk' := hle k hk
    omega

theorem decodeReads_inside (i : Nat) :
    Inside payload (decodeReads (payload ++ stale) i payload.length) ↔ stringFits payload i = true := by
  unfold decodeReads stringFits
  rw [List.cons_append, inside_cons, inside_append, inside_map, getnumReads_inside]
  cases hb : payload[i]? with
  | none =>
    have hge : payload.length ≤ i := List.getElem?_eq_none_iff.mp hb
    simp [Nat.not_lt.mpr hge]
  | some b =>
    obtain ⟨hi, hb'⟩ := getElem_payload payload stale hb
    cases hn : hpackGetnum payload i 0x7F with
    | none => simp
    | some r =>
      obtain ⟨n, j⟩ := r
      rw [hb', hpackGetnum_append payload stale i 0x7F (n, j) hn]
      simp only [hi, Option.isSome_some, true_and]
      by_cases hlong : 1024 < n
      · have hn' : ¬ n ≤ 1024 := by omega
        simp [hlong, hn', inside_nil]
      by_cases hend : payload.length < j + n
      · have hne : ¬ j + n = payload.length := by omega
        simp [hlong, hend, hne, inside_nil]
      have hdata : (((payload ++ stale).drop j).take n).length = n := by
        rw [List.length_take, List.length_drop, List.length_append]
        omega
      rw [if_neg hlong, if_neg hend]
      by_cases hhuff : b &&& 0x80 = 0x80
      · have hreads := huffReads_inside payload (((payload ++ stale).drop j).take n) j (by omega)
          (by omega)
        rw [hdata] at hreads
        have hn' : n ≤ 1024 := by omega
        rw [if_pos hhuff, hreads]
        simp [hhuff, hn']
      · rw [if_neg hhuff, inside_map]
        simp only [hhuff, decide_false, Bool.false_and, Bool.not_false, iff_true, List.mem_range'_1]
        intro k hk
        omega

/-- A string that fits is decoded from the payload alone. -/
theorem hpackDecode_fits {i : Nat} (h : stringFits payload i = true) :
    hpackDecode (payload ++ stale) i payload.length = hpackDecode payload i payload.length := by
  unfold stringFits at h
  unfold hpackDecode
  cases hb : payload[i]? with
  | none =>
    rw [hb] at h
    cases h
  | some b =>
    cases hn : hpackGetnum payload i 0x7F with
    | none =>
      rw [hb, hn] at h
      cases h
    | some r =>
      obtain ⟨n, j⟩ := r
      rw [(getElem_payload payload stale hb).2, hpackGetnum_append payload stale i 0x7F (n, j) hn]
      dsimp only
      by_cases hend : payload.length < j + n
      · rw [if_pos hend, if_pos hend]
      · have hdata : ((payload ++ stale).drop j).take n = (payload.drop j).take n := by
          rw [List.drop_append_of_le_length (by omega),
            List.take_append_of_le_length (by rw [List.length_drop]; omega)]
        rw [hdata]

theorem headerKey_fits {idx i : Nat} (h : (idx != 0 || stringFits payload i) = true) :
    headerKey dynTable (payload ++ stale) payload.length idx i =
      headerKey dynTable payload payload.length idx i := by
  unfold headerKey
  by_cases hnew : idx = 0
  · rw [hnew] at h
    rw [if_pos hnew, if_pos hnew]
    exact hpackDecode_fits payload stale h
  · rw [if_neg hnew, if_neg hnew]

theorem headerFieldReads_inside (i : Nat) (mask : Byte) (known : Bool) :
    Inside payload (headerFieldReads dynTable (payload ++ stale) payload.length i mask known) ↔
      fieldFits dynTable payload i mask known = true := by
  unfold headerFieldReads fieldFits
  rw [inside_append, inside_map, getnumReads_inside]
  cases hn : hpackGetnum payload i mask with
  | none => simp
  | some r =>
    obtain ⟨idx, j⟩ := r
    rw [hpackGetnum_append payload stale i mask (idx, j) hn]
    dsimp only
    rw [Option.isSome_some, inside_append, Bool.and_eq_true]
    have hkey : Inside payload (if idx = 0 then decodeReads (payload ++ stale) j payload.length else []) ↔
        (idx != 0 || stringFits payload j) = true := by
      by_cases hnew : idx = 0
      · rw [if_pos hnew, decodeReads_inside, hnew]
        rfl
      · simp [hnew, inside_nil]
    rw [hkey]
    refine (and_iff_right rfl).trans (and_congr_right fun hfits => ?_)
    rw [headerKey_fits dynTable payload stale hfits]
    cases headerKey dynTable payload payload.length idx j with
    | none => simp [inside_nil]
    | some r =>
      obtain ⟨key, k⟩ := r
      cases known with
      | true => simp [inside_nil]
      | false => exact decodeReads_inside payload stale k

theorem headerField_fits {i : Nat} {mask : Byte} {known : Bool} (indexing : Bool)
    (h : fieldFits dynTable payload i mask known = true) :
    headerField dynTable (payload ++ stale) payload.length i mask known indexing =
      headerField dynTable payload payload.length i mask known indexing := by
  unfold fieldFits at h
  unfold headerField
  cases hn : hpackGetnum payload i mask with
  | none =>
    rw [hn] at h
    cases h
  | some r =>
    obtain ⟨idx, j⟩ := r
    rw [hn] at h
    obtain ⟨hkey, hval⟩ := (Bool.and_eq_true _ _).mp h
    rw [hpackGetnum_append payload stale i mask (idx, j) hn, Option.bind_some, Option.bind_some]
    dsimp only at hval ⊢
    rw [headerKey_fits dynTable payload stale hkey]
    cases hk : headerKey dynTable payload payload.length idx j with
    | none => rfl
    | some r =>
      obtain ⟨key, k⟩ := r
      rw [hk] at hval
      cases known with
      | true => rfl
      | false =>
        rw [Option.bind_some, Option.bind_some]
        dsimp only at hval ⊢
        rw [hpackDecode_fits payload stale hval]

theorem nextHeaderReads_inside (i : Nat) :
    Inside payload (nextHeaderReads dynTable (payload ++ stale) payload.length i) ↔
      entryFits dynTable payload i = true := by
  unfold nextHeaderReads entryFits
  rw [inside_cons]
  cases hb : payload[i]? with
  | none =>
    have hge : payload.length ≤ i := List.getElem?_eq_none_iff.mp hb
    simp [Nat.not_lt.mpr hge]
  | some b =>
    obtain ⟨hi, hb'⟩ := getElem_payload payload stale hb
    rw [hb']
    dsimp only
    refine (and_iff_right hi).trans ?_
    split_ifs
    · exact headerFieldReads_inside dynTable payload stale i 0x7F true
    · exact headerFieldReads_inside dynTable payload stale i 0x3F false
    · exact headerFieldReads_inside dynTable payload stale i 0x0F false
    · exact headerFieldReads_inside dynTable payload stale i 0x0F false
    · exact inside_map.trans (getnumReads_inside payload stale i 0x1F)
    · exact iff_of_true inside_nil rfl

theorem nextHeader_fits {i : Nat} (h : entryFits dynTable payload i = true) :
    nextHeader dynTable (payload ++ stale) payload.length i =
      nextHeader dynTable payload payload.length i := by
  unfold entryFits at h
  unfold nextHeader
  cases hb : payload[i]? with
  | none =>
    rw [hb] at h
    cases h
  | some b =>
    rw [hb] at h
    rw [(getElem_payload payload stale hb).2, Option.bind_some, Option.bind_some]
    dsimp only at h ⊢
    split_ifs at h ⊢
    · rw [headerField_fits dynTable payload stale false h]
    · rw [headerField_fits dynTable payload stale true h]
    · rw [headerField_fits dynTable payload stale false h]
    · rw [headerField_fits dynTable payload stale false h]
    · obtain ⟨r, hr⟩ := Option.isSome_iff_exists.mp h
      rw [hpackGetnum_append payload stale i 0x1F r hr, hr]
    · rfl

/-- The reads of a header block are inside of the frame exactly if its entries fit. -/
theorem blockReads_inside (padding turns i : Nat) :
    Inside payload (blockReads (payload ++ stale) payload.length padding turns dynTable i) ↔
      blockFits payload padding turns dynTable i = true := by
  induction turns generalizing dynTable i with
  | zero => exact iff_of_true inside_nil rfl
  | succ turns ih =>
    rw [blockReads, blockFits]
    split_ifs with hi
    · rw [inside_append, nextHeaderReads_inside, Bool.and_eq_true]
      refine and_congr_right fun hfits => ?_
      rw [nextHeader_fits dynTable payload stale hfits]
      cases nextHeader dynTable payload payload.length i with
      | none => exact iff_of_true inside_nil rfl
      | some r => exact ih r.2.1 r.2.2
    · exact iff_of_true inside_nil rfl

end Reads

theorem settingsReads_inside (size i : Nat) :
    (∀ k ∈ settingsReads size i, k < size) ↔ size ≤ i ∨ (size - i) % 6 = 0 := by
  fun_induction settingsReads size i with
  | case1 i hi ih =>
    rw [List.forall_mem_append, ih]
    simp only [List.mem_range'_1]
    constructor
    · rintro ⟨h, hrest⟩
      have hlast := h (i + 5) (by omega)
      omega
    · intro h
      exact ⟨fun k hk => by omega, by omega⟩
  | case2 i hi => exact iff_of_true (by simp) (Or.inl (by omega))

end CivetWeb
