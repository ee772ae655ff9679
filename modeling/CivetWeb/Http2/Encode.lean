import CivetWeb.Http2.Strings

namespace CivetWeb

open Hpack

/-- `target[k] |= ac`; `none` writes behind the buffer. -/
def orByte (bin : List Byte) (k ac : Nat) : Option (List Byte) :=
  (bin[k]?).map fun b => bin.set k (b ||| UInt8.ofNat ac)

/-- `append_bits` with `target` as an index of the buffer. -/
def appendBits (bin : List Byte) (target offset value valueBits : Nat) : Option (List Byte) :=
  let offsetBytes := offset / 8
  let offsetBits := offset % 8
  let value := value % 2 ^ valueBits
  let remainingBits := 8 - offsetBits
  if valueBits ≤ remainingBits then
    orByte bin (target + offsetBytes) (value <<< (remainingBits - valueBits))
  else
    (orByte bin (target + offsetBytes) (value >>> (valueBits - remainingBits))).bind fun bin =>
      appendBits bin target (offset + remainingBits) value (valueBits - remainingBits)
termination_by valueBits
decreasing_by omega

/-- `memset(store, 0, n)`. -/
def zeroBytes (bin : List Byte) (store n : Nat) : Option (List Byte) :=
  if store + n ≤ bin.length then some (bin.take store ++ zeros n ++ bin.drop (store + n)) else none

/-- The search for a byte in the table of codes. -/
def huffEntry (b : Byte) : Option HuffDec := (hpackHuffDec.take 256).find? (·.decoded == b)

/-- The loop of `hpack_encode` over `load`: the buffer and `len_bits`. -/
def encodeLoop (target : Nat) : List Byte → List Byte → Nat → Option (List Byte × Nat)
  | [], bin, lenBits => some (bin, lenBits)
  | b :: load, bin, lenBits =>
    match huffEntry b with
    | none => encodeLoop target load bin lenBits
    | some e =>
      (appendBits bin target lenBits e.encoded e.bitcount).bind fun bin =>
        encodeLoop target load bin (lenBits + e.bitcount)

/-- `hpack_encode`: how many bytes it stores, and the buffer; `none` writes behind the buffer. -/
def hpackEncode (bin : List Byte) (store : Nat) (load : List Byte) (lower : Bool) :
    Option (Nat × List Byte) :=
  let load := cstr load
  (zeroBytes bin store (load.length + 1)).bind fun bin =>
  (encodeLoop (store + 1) (if lower then load.map tolower else load) bin 0).bind fun (bin, lenBits) =>
  let lenBytes := (lenBits + 7) / 8
  let spareBits := lenBytes * 8 - lenBits
  (if spareBits = 0 then some bin else appendBits bin (store + 1) lenBits 0xFFFFFFFF spareBits).map
    fun bin =>
      if 127 ≤ lenBytes then (0, bin)
      else (lenBytes + 1, bin.set store (UInt8.ofNat (0x80 + lenBytes)))

/-! ### The bits of a buffer -/

def bitAt (bin : List Byte) (q : Nat) : Bool := (bin.getD (q / 8) 0).toNat.testBit (7 - q % 8)

/-- What `append_bits` makes of the bits: those of the value are added behind the offset. -/
def addedBit (start value valueBits q : Nat) : Bool :=
  decide (start ≤ q) && decide (q < start + valueBits) && value.testBit (valueBits - 1 - (q - start))

theorem orByte_some {bin bin' : List Byte} {k ac : Nat} (h : orByte bin k ac = some bin') (hac : ac < 256) :
    k < bin.length ∧ bin'.length = bin.length ∧
      ∀ q, bitAt bin' q = (bitAt bin q || (decide (q / 8 = k) && ac.testBit (7 - q % 8))) := by
  obtain ⟨b, hb, rfl⟩ := Option.map_eq_some_iff.mp h
  obtain ⟨hk, hget⟩ := List.getElem?_eq_some_iff.mp hb
  refine ⟨hk, List.length_set, ?_⟩
  intro q
  unfold bitAt
  by_cases hq : q / 8 = k
  · rw [hq, List.getD_eq_getElem?_getD, List.getElem?_set_self hk, List.getD_eq_getElem?_getD, hb,
      Option.getD_some, Option.getD_some, UInt8.toNat_or, Nat.testBit_or, UInt8.toNat_ofNat',
      Nat.mod_eq_of_lt hac]
    simp
  · rw [List.getD_eq_getElem?_getD, List.getElem?_set_ne (Ne.symm hq), ← List.getD_eq_getElem?_getD]
    simp [hq]

theorem shifted_lt (value valueBits room : Nat) (h : valueBits ≤ room) (hroom : room ≤ 8) :
    (value % 2 ^ valueBits) <<< (room - valueBits) < 256 := by
  have hlt : value % 2 ^ valueBits < 2 ^ valueBits := Nat.mod_lt _ (Nat.two_pow_pos _)
  rw [Nat.shiftLeft_eq]
  calc value % 2 ^ valueBits * 2 ^ (room - valueBits)
      < 2 ^ valueBits * 2 ^ (room - valueBits) := Nat.mul_lt_mul_of_pos_right hlt (Nat.two_pow_pos _)
    _ = 2 ^ room := by rw [← Nat.pow_add, Nat.add_sub_cancel' h]
    _ ≤ 256 := Nat.pow_le_pow_right (by decide) hroom

theorem shiftedRight_lt (value valueBits room : Nat) (h : room ≤ valueBits) (hroom : room ≤ 8) :
    (value % 2 ^ valueBits) >>> (valueBits - room) < 256 := by
  have hlt : value % 2 ^ valueBits < 2 ^ valueBits := Nat.mod_lt _ (Nat.two_pow_pos _)
  rw [Nat.shiftRight_eq_div_pow, Nat.div_lt_iff_lt_mul (Nat.two_pow_pos _)]
  calc value % 2 ^ valueBits < 2 ^ valueBits := hlt
    _ = 2 ^ room * 2 ^ (valueBits - room) := by rw [← Nat.pow_add, Nat.add_sub_cancel' h]
    _ ≤ 256 * 2 ^ (valueBits - room) :=
      Nat.mul_le_mul_right _ (Nat.pow_le_pow_right (by decide) hroom : 2 ^ room ≤ 2 ^ 8)

/-- The bits of a value in the last byte that it is added to. -/
theorem shiftLeft_bit (value valueBits room q k : Nat) (h : valueBits ≤ room) (hroom : room ≤ 8) :
    (decide (q / 8 = k) && ((value % 2 ^ valueBits) <<< (room - valueBits)).testBit (7 - q % 8)) =
      addedBit (8 * k + (8 - room)) value valueBits q := by
  unfold addedBit
  rw [Nat.testBit_shiftLeft, Nat.testBit_mod_two_pow]
  by_cases hin : 8 * k + (8 - room) ≤ q ∧ q < 8 * k + (8 - room) + valueBits
  · have h1 : q / 8 = k := by omega
    have h2 : 7 - q % 8 ≥ room - valueBits := by omega
    have h3 : 7 - q % 8 - (room - valueBits) < valueBits := by omega
    have h4 : valueBits - 1 - (q - (8 * k + (8 - room))) = 7 - q % 8 - (room - valueBits) := by omega
    simp only [h1, h2, h3, h4, hin.1, hin.2, decide_true, Bool.true_and]
  · have hout : ¬ (q / 8 = k ∧ 7 - q % 8 ≥ room - valueBits ∧
        7 - q % 8 - (room - valueBits) < valueBits) := by omega
    grind

/-- The bits of a value in a byte that it fills up. -/
theorem shiftRight_bit (value valueBits room q k : Nat) (h : room ≤ valueBits) (hroom : room ≤ 8) :
    (decide (q / 8 = k) && ((value % 2 ^ valueBits) >>> (valueBits - room)).testBit (7 - q % 8)) =
      (decide (q < 8 * k + 8) && addedBit (8 * k + (8 - room)) value valueBits q) := by
  unfold addedBit
  rw [Nat.testBit_shiftRight, Nat.testBit_mod_two_pow]
  by_cases hin : 8 * k + (8 - room) ≤ q ∧ q < 8 * k + 8
  · have h1 : q / 8 = k := by omega
    have h2 : valueBits - room + (7 - q % 8) < valueBits := by omega
    have h3 : q < 8 * k + (8 - room) + valueBits := by omega
    have h4 : valueBits - 1 - (q - (8 * k + (8 - room))) = valueBits - room + (7 - q % 8) := by omega
    simp only [h1, h2, h3, h4, hin.1, hin.2, decide_true, Bool.true_and]
  · have hout : ¬ (q / 8 = k ∧ valueBits - room + (7 - q % 8) < valueBits) := by omega
    grind

theorem addedBit_split (start value valueBits room q : Nat) (h : room < valueBits) :
    ((decide (q < start + room) && addedBit start value valueBits q) ||
        addedBit (start + room) (value % 2 ^ valueBits) (valueBits - room) q) =
      addedBit start value valueBits q := by
  unfold addedBit
  rw [Nat.testBit_mod_two_pow]
  by_cases hq : start + room ≤ q
  · have h1 : ¬ q < start + room := by omega
    have h2 : start ≤ q := by omega
    have h3 : (q < start + room + (valueBits - room)) ↔ q < start + valueBits := by omega
    have h4 : valueBits - room - 1 - (q - (start + room)) < valueBits := by omega
    have h5 : q < start + valueBits →
        valueBits - room - 1 - (q - (start + room)) = valueBits - 1 - (q - start) := by omega
    simp only [h1, h2, h3, h4, hq, decide_true, decide_false, Bool.true_and, Bool.false_and,
      Bool.false_or]
    by_cases hin : q < start + valueBits
    · rw [h5 hin]
    · simp [hin]
  · have h1 : q < start + room := by omega
    simp [h1, hq]

theorem appendBits_some {bin bin' : List Byte} {target offset value valueBits : Nat}
    (h : appendBits bin target offset value valueBits = some bin') (hpos : 0 < valueBits) :
    8 * target + offset + valueBits ≤ 8 * bin.length ∧ bin'.length = bin.length ∧
      ∀ q, bitAt bin' q = (bitAt bin q || addedBit (8 * target + offset) value valueBits q) := by
  fun_induction appendBits bin target offset value valueBits generalizing bin' with
  | case1 =>
    rename_i bin offset value valueBits offsetBytes offsetBits value' room hlast
    have hstart : 8 * (target + offsetBytes) + (8 - room) = 8 * target + offset := by omega
    obtain ⟨hk, hlen, hbits⟩ := orByte_some h (shifted_lt value valueBits room hlast (by omega))
    refine ⟨by omega, hlen, fun q => ?_⟩
    rw [hbits, shiftLeft_bit value valueBits room q (target + offsetBytes) hlast (by omega), hstart]
  | case2 =>
    rename_i bin offset value valueBits offsetBytes offsetBits value' room hmore ih
    obtain ⟨mid, hmid, hrest⟩ := Option.bind_eq_some_iff.mp h
    have hstart : 8 * (target + offsetBytes) + (8 - room) = 8 * target + offset := by omega
    have hnext : 8 * (target + offsetBytes) + 8 = 8 * target + offset + room := by omega
    obtain ⟨hk, hlen, hbits⟩ := orByte_some hmid
      (shiftedRight_lt value valueBits room (by omega) (by omega))
    obtain ⟨hfit, hlen', hbits'⟩ := ih mid hrest (by omega)
    refine ⟨by omega, hlen'.trans hlen, fun q => ?_⟩
    rw [hbits', hbits, shiftRight_bit value valueBits room q (target + offsetBytes) (by omega) (by omega),
      hstart, hnext, Bool.or_assoc, ← Nat.add_assoc, addedBit_split _ _ _ _ _ (by omega)]

theorem orByte_isSome {bin : List Byte} {k : Nat} (ac : Nat) (hk : k < bin.length) :
    ∃ bin', orByte bin k ac = some bin' ∧ bin'.length = bin.length := by
  refine ⟨bin.set k (bin[k] ||| UInt8.ofNat ac), ?_, List.length_set⟩
  rw [orByte, List.getElem?_eq_getElem hk]
  rfl

theorem appendBits_isSome {bin : List Byte} {target offset value valueBits : Nat}
    (hfit : 8 * target + offset + valueBits ≤ 8 * bin.length) (hpos : 0 < valueBits) :
    (appendBits bin target offset value valueBits).isSome = true := by
  fun_induction appendBits bin target offset value valueBits with
  | case1 =>
    rename_i bin offset value valueBits offsetBytes offsetBits value' room hlast
    obtain ⟨bin', hbin, -⟩ := orByte_isSome (value' <<< (room - valueBits))
      (by omega : target + offsetBytes < bin.length)
    rw [hbin]
    rfl
  | case2 =>
    rename_i bin offset value valueBits offsetBytes offsetBits value' room hmore ih
    obtain ⟨bin', hbin, hlen⟩ := orByte_isSome (value' >>> (valueBits - room))
      (by omega : target + offsetBytes < bin.length)
    rw [hbin, Option.bind_some]
    exact ih bin' (by omega) (by omega)

/-! ### The codes of a string -/

/-- The bits as they stand in a buffer from bit `start` on. -/
def placedBit (start : Nat) (bits : List Bool) (q : Nat) : Bool :=
  decide (start ≤ q) && bits.getD (q - start) false

theorem placedBit_append (start : Nat) (bits bits' : List Bool) (q : Nat) :
    placedBit start (bits ++ bits') q =
      (placedBit start bits q || placedBit (start + bits.length) bits' q) := by
  unfold placedBit
  simp only [List.getD_eq_getElem?_getD]
  by_cases hq : q - start < bits.length
  · have hnot : start ≤ q → ¬ start + bits.length ≤ q := by omega
    rw [List.getElem?_append_left hq]
    by_cases hs : start ≤ q
    · simp [hs, hnot hs]
    · have : ¬ start + bits.length ≤ q := by omega
      simp [hs, this]
  · rw [List.getElem?_append_right (by omega), List.getElem?_eq_none (by omega : bits.length ≤ q - start),
      Nat.sub_sub]
    by_cases hs : start ≤ q
    · have : start + bits.length ≤ q := by omega
      simp [hs, this]
    · have : ¬ start + bits.length ≤ q := by omega
      simp [hs, this]

theorem addedBit_placed (start value valueBits q : Nat) :
    addedBit start value valueBits q = placedBit start (Bits.ofNat valueBits value) q := by
  unfold addedBit placedBit Bits.ofNat
  rw [List.getD_eq_getElem?_getD, List.getElem?_map, Bool.and_assoc]
  by_cases hs : start ≤ q
  · by_cases hq : q - start < valueBits
    · have hlt : q < start + valueBits := by omega
      simp [hs, hlt, hq]
    · have hge : ¬ q < start + valueBits := by omega
      simp [hs, hge, hq]
  · simp [hs]

/-- Every byte has its code in the decoding table. -/
theorem huffEntry_code (b : Byte) : ∃ e, huffEntry b = some e ∧
    Bits.ofNat e.bitcount e.encoded = huffmanCode b ∧ 0 < e.bitcount := by
  obtain ⟨e, he, hb⟩ := exists_huffDec b
  have hsome : (huffEntry b).isSome = true :=
    List.find?_isSome.mpr ⟨e, he, beq_iff_eq.mpr hb⟩
  obtain ⟨e', he'⟩ := Option.isSome_iff_exists.mp hsome
  have hfound : e'.decoded = b := by simpa using List.find?_some he'
  have hcode := huffDec_codes e' (List.mem_of_find?_eq_some he')
  rw [hfound] at hcode
  exact ⟨e', he', hcode⟩

theorem encodeLoop_some {target lenBits n : Nat} {load bin bin' : List Byte}
    (h : encodeLoop target load bin lenBits = some (bin', n)) :
    n = lenBits + (load.flatMap huffmanCode).length ∧
      (load ≠ [] → 8 * target + n ≤ 8 * bin.length) ∧ bin'.length = bin.length ∧
      ∀ q, bitAt bin' q =
        (bitAt bin q || placedBit (8 * target + lenBits) (load.flatMap huffmanCode) q) := by
  induction load generalizing bin lenBits with
  | nil =>
    rw [encodeLoop, Option.some.injEq, Prod.mk.injEq] at h
    obtain ⟨rfl, rfl⟩ := h
    exact ⟨rfl, fun hne => absurd rfl hne, rfl, fun q => by simp [placedBit]⟩
  | cons b load ih =>
    obtain ⟨e, he, hcode, hpos⟩ := huffEntry_code b
    rw [encodeLoop, he] at h
    obtain ⟨mid, hmid, hrest⟩ := Option.bind_eq_some_iff.mp h
    obtain ⟨hfit, hlen, hbits⟩ := appendBits_some hmid hpos
    obtain ⟨hn, hfit', hlen', hbits'⟩ := ih hrest
    have hcount : (huffmanCode b).length = e.bitcount := by rw [← hcode, Bits.ofNat_length]
    rw [List.flatMap_cons, List.length_append, hcount]
    refine ⟨by omega, fun _ => ?_, hlen'.trans hlen, fun q => ?_⟩
    · cases load with
      | nil =>
        rw [List.flatMap_nil, List.length_nil] at hn
        omega
      | cons c load =>
        have := hfit' (List.cons_ne_nil c load)
        omega
    · rw [hbits', hbits, addedBit_placed, hcode, placedBit_append, hcount, Bool.or_assoc, Nat.add_assoc]

theorem encodeLoop_isSome {target lenBits : Nat} {load bin : List Byte}
    (hfit : 8 * target + lenBits + (load.flatMap huffmanCode).length ≤ 8 * bin.length) :
    (encodeLoop target load bin lenBits).isSome = true := by
  induction load generalizing bin lenBits with
  | nil => rfl
  | cons b load ih =>
    obtain ⟨e, he, hcode, hpos⟩ := huffEntry_code b
    have hcount : (huffmanCode b).length = e.bitcount := by rw [← hcode, Bits.ofNat_length]
    rw [List.flatMap_cons, List.length_append, hcount] at hfit
    have hroom : 8 * target + lenBits + e.bitcount ≤ 8 * bin.length := by omega
    obtain ⟨mid, hmid⟩ : ∃ mid, appendBits bin target lenBits e.encoded e.bitcount = some mid :=
      Option.isSome_iff_exists.mp (appendBits_isSome hroom hpos)
    rw [encodeLoop, he]
    dsimp only
    rw [hmid, Option.bind_some]
    refine ih ?_
    rw [(appendBits_some hmid hpos).2.1]
    omega

/-! ### A string as it is stored -/

/-- The bytes are added to those of the buffer from `k` on. -/
def orBytes (bin : List Byte) (k : Nat) (s : List Byte) : List Byte :=
  bin.mapIdx fun p b => b ||| if k ≤ p then s.getD (p - k) 0 else 0

theorem getD_ofOctets (s : List Byte) (q : Nat) : (Bits.ofOctets s).getD q false = bitAt s q := by
  induction s generalizing q with
  | nil => simp [bitAt]
  | cons b s ih =>
    rw [Bits.ofOctets_cons, List.getD_eq_getElem?_getD]
    by_cases hq : q < 8
    · have hdiv : q / 8 = 0 := by omega
      have hmod : q % 8 = q := by omega
      have hpos : 8 - 1 - q = 7 - q := by omega
      rw [List.getElem?_append_left (by simpa using hq)]
      simp [bitAt, Bits.ofNat, hq, hdiv, hmod]
    · have hdiv : q / 8 = (q - 8) / 8 + 1 := by omega
      have hmod : q % 8 = (q - 8) % 8 := by omega
      rw [List.getElem?_append_right (by simpa using hq), Bits.ofNat_length,
        ← List.getD_eq_getElem?_getD, ih, bitAt, bitAt, hdiv, hmod, List.getD_cons_succ]

theorem length_orBytes (bin : List Byte) (k : Nat) (s : List Byte) :
    (orBytes bin k s).length = bin.length := List.length_mapIdx

theorem bitAt_orBytes (bin : List Byte) (k : Nat) (s : List Byte) (hfit : k + s.length ≤ bin.length)
    (q : Nat) : bitAt (orBytes bin k s) q = (bitAt bin q || placedBit (8 * k) (Bits.ofOctets s) q) := by
  rw [placedBit, getD_ofOctets]
  unfold bitAt orBytes
  simp only [List.getD_eq_getElem?_getD, List.getElem?_mapIdx]
  by_cases hk : k ≤ q / 8
  · have hstart : 8 * k ≤ q := by omega
    have hdiv : (q - 8 * k) / 8 = q / 8 - k := by omega
    have hmod : (q - 8 * k) % 8 = q % 8 := by omega
    rw [hdiv, hmod]
    by_cases hq : q / 8 < bin.length
    · simp [hq, hk, hstart]
    · have hend : s.length ≤ q / 8 - k := by omega
      simp [List.getElem?_eq_none (Nat.not_lt.mp hq), List.getElem?_eq_none hend]
  · have hstart : ¬ 8 * k ≤ q := by omega
    by_cases hq : q / 8 < bin.length
    · simp [hq, hk, hstart]
    · simp [List.getElem?_eq_none (Nat.not_lt.mp hq), hstart]

theorem bitAt_ext {a b : List Byte} (hlen : a.length = b.length) (h : ∀ q, bitAt a q = bitAt b q) :
    a = b := by
  refine List.ext_getElem hlen fun i ha hb => UInt8.toNat_inj.mp (Nat.eq_of_testBit_eq fun j => ?_)
  by_cases hj : j < 8
  · have hq := h (8 * i + (7 - j))
    have hdiv : (8 * i + (7 - j)) / 8 = i := by omega
    have hmod : 7 - (8 * i + (7 - j)) % 8 = j := by omega
    rw [bitAt, bitAt, hdiv, hmod] at hq
    simpa [List.getD_eq_getElem?_getD, ha, hb] using hq
  · have hbig (x : Byte) : x.toNat.testBit j = false := by
      have hpow : 2 ^ 8 ≤ 2 ^ j := Nat.pow_le_pow_right (by decide) (by omega)
      exact Nat.testBit_lt_two_pow (lt_of_lt_of_le x.toNat_lt hpow)
    rw [hbig, hbig]

/-- How long the Huffman code of a text is, and the ones that fill its last byte. -/
theorem encodeHuffman_length (text : List Byte) :
    (encodeHuffman text).length = ((text.flatMap huffmanCode).length + 7) / 8 ∧
      Bits.ofOctets (encodeHuffman text) = text.flatMap huffmanCode ++
        List.replicate (8 * (encodeHuffman text).length - (text.flatMap huffmanCode).length) true := by
  obtain ⟨k, hk, hbits⟩ := Bits.ofOctets_pack (text.flatMap huffmanCode)
  have hlen := Bits.ofOctets_length (encodeHuffman text)
  rw [encodeHuffman] at hlen ⊢
  rw [hbits, List.length_append, List.length_replicate] at hlen
  refine ⟨by omega, ?_⟩
  rw [hbits, show 8 * (Bits.pack (text.flatMap huffmanCode)).length -
    (text.flatMap huffmanCode).length = k by omega]

theorem ones_bits : ∀ k < 8, Bits.ofNat k 0xFFFFFFFF = List.replicate k true := by decide

/-- The loop over a text and the ones behind it. -/
theorem encodeLoop_pack {bin mid bin' : List Byte} {target n : Nat} (text : List Byte)
    (hloop : encodeLoop target text bin 0 = some (mid, n))
    (hspare : (if (n + 7) / 8 * 8 - n = 0 then some mid
      else appendBits mid target n 0xFFFFFFFF ((n + 7) / 8 * 8 - n)) = some bin')
    (hfit : target + (encodeHuffman text).length ≤ bin.length) :
    bin' = orBytes bin target (encodeHuffman text) := by
  obtain ⟨hlen, hpack⟩ := encodeHuffman_length text
  obtain ⟨hn, -, hmid, hbits⟩ := encodeLoop_some hloop
  rw [Nat.zero_add] at hn
  have hsame : 8 * (encodeHuffman text).length - (text.flatMap huffmanCode).length =
      (n + 7) / 8 * 8 - n := by omega
  rw [hsame] at hpack
  split_ifs at hspare with hzero
  · obtain rfl := Option.some.inj hspare
    refine bitAt_ext (by rw [hmid, length_orBytes]) fun q => ?_
    rw [bitAt_orBytes bin target _ hfit, hbits, hpack, hzero, Nat.add_zero, List.replicate_zero,
      List.append_nil]
  · obtain ⟨-, hlen', hbits'⟩ := appendBits_some hspare (by omega)
    refine bitAt_ext (by rw [hlen', hmid, length_orBytes]) fun q => ?_
    rw [bitAt_orBytes bin target _ hfit, hbits', hbits, hpack, addedBit_placed,
      ones_bits _ (by omega), placedBit_append, Bool.or_assoc, Nat.add_zero, hn]

/-- `hpack_encode` adds the Huffman code of the text to what is in the buffer behind it. -/
theorem hpackEncode_eq (bin : List Byte) (store : Nat) (load : List Byte) (lower : Bool) :
    let text := if lower then (cstr load).map tolower else cstr load
    let data := encodeHuffman text
    let cleared := bin.take store ++ zeros (text.length + 1) ++ bin.drop (store + (text.length + 1))
    hpackEncode bin store load lower =
      if store + text.length < bin.length ∧ store + data.length < bin.length then
        some (if 127 ≤ data.length then (0, orBytes cleared (store + 1) data)
          else (data.length + 1,
            (orBytes cleared (store + 1) data).set store (UInt8.ofNat (0x80 + data.length))))
      else none := by
  intro text data cleared
  have htext : (cstr load).length = text.length := by
    simp only [text]
    split_ifs
    · rw [List.length_map]
    · rfl
  have hdef : (if lower then (cstr load).map tolower else cstr load) = text := rfl
  have hlen : data.length = ((text.flatMap huffmanCode).length + 7) / 8 := (encodeHuffman_length text).1
  unfold hpackEncode
  dsimp only
  rw [htext, hdef]
  by_cases hclear : store + text.length < bin.length
  swap
  · have hnone : zeroBytes bin store (text.length + 1) = none := if_neg (by omega)
    have hout : ¬ (store + text.length < bin.length ∧ store + data.length < bin.length) :=
      fun h => hclear h.1
    rw [hnone, if_neg hout]
    rfl
  have hcleared : cleared.length = bin.length := by
    simp only [cleared, zeros, List.length_append, List.length_take, List.length_replicate,
      List.length_drop]
    omega
  have hzero : zeroBytes bin store (text.length + 1) = some cleared := if_pos (by omega)
  rw [hzero, Option.bind_some]
  by_cases hfit : store + data.length < bin.length
  · obtain ⟨⟨mid, n⟩, hloop⟩ : ∃ r, encodeLoop (store + 1) text cleared 0 = some r :=
      Option.isSome_iff_exists.mp (encodeLoop_isSome (by omega))
    obtain ⟨hn, -, hmid, -⟩ := encodeLoop_some hloop
    rw [Nat.zero_add] at hn
    have hbytes : (n + 7) / 8 = data.length := by omega
    obtain ⟨bin', hspare⟩ : ∃ bin', (if (n + 7) / 8 * 8 - n = 0 then some mid
        else appendBits mid (store + 1) n 0xFFFFFFFF ((n + 7) / 8 * 8 - n)) = some bin' := by
      split_ifs with hnone
      · exact ⟨mid, rfl⟩
      · exact Option.isSome_iff_exists.mp (appendBits_isSome (by omega) (by omega))
    have hroom : store + 1 + data.length ≤ cleared.length := by omega
    have hbin := encodeLoop_pack text hloop hspare hroom
    have hin : store + text.length < bin.length ∧ store + data.length < bin.length := ⟨hclear, hfit⟩
    rw [hloop, Option.bind_some, if_pos hin]
    dsimp only
    rw [hspare, Option.map_some, hbytes, hbin]
  · have hnone : encodeLoop (store + 1) text cleared 0 = none := by
      cases hloop : encodeLoop (store + 1) text cleared 0 with
      | none => rfl
      | some r =>
        obtain ⟨hn, hroom, -, -⟩ := encodeLoop_some hloop
        have hne : text ≠ [] := by
          rintro hnil
          rw [hnil, List.flatMap_nil, List.length_nil] at hlen
          omega
        have := hroom hne
        omega
    have hout : ¬ (store + text.length < bin.length ∧ store + data.length < bin.length) :=
      fun h => hfit h.2
    rw [hnone, if_neg hout]
    rfl

end CivetWeb
