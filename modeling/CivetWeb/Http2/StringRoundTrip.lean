import CivetWeb.Http2.CodeTree
import CivetWeb.Http2.HeaderList

namespace CivetWeb

open Hpack

/-! ### A string stored and read back -/

/-- The text that `hpack_encode` stores. -/
def loadedText (load : List Byte) (lower : Bool) : List Byte :=
  if lower then (cstr load).map tolower else cstr load

/-- What `hpack_encode` stores is a string literal of the returned length, and `hpack_decode` reads its text. -/
def RoundTrips (bin : List Byte) (store : Nat) (load : List Byte) (lower : Bool) : Prop :=
  ∃ n bin' huffman, hpackEncode bin store load lower = some (n, bin') ∧
    ReadsLiteral (bin'.drop store) ⟨huffman, loadedText load lower⟩ (bin'.drop (store + n)) ∧
    ∀ maxI, store + n ≤ maxI → hpackDecode bin' store maxI = some (loadedText load lower, store + n)

/-- The bytes behind those that `hpack_encode` clears have no bits that the code does not have. -/
def NoStaleBits (bin : List Byte) (store : Nat) (text : List Byte) : Prop :=
  ∀ k, text.length ≤ k → k < (encodeHuffman text).length →
    bin.getD (store + 1 + k) 0 ||| (encodeHuffman text).getD k 0 = (encodeHuffman text).getD k 0

theorem tolower_ne_nul (b : Byte) (h : b ≠ NUL) : tolower b ≠ NUL := by
  have hpos := tolower_toNat_pos b h
  intro hnul
  rw [hnul] at hpos
  exact absurd hpos (by decide)

theorem loadedText_noNul (load : List Byte) (lower : Bool) : NUL ∉ loadedText load lower := by
  unfold loadedText
  split_ifs
  · intro hmem
    obtain ⟨b, hb, hnul⟩ := List.mem_map.mp hmem
    exact tolower_ne_nul b (ne_of_mem_of_not_mem hb (cstr_noNul load)) hnul
  · exact cstr_noNul load

/-- A text is the beginning of what it is read from, up to a NUL. -/
theorem cstr_eq_cases {s text : List Byte} (h : cstr s = text) : s = text ∨ ∃ more, s = text ++ NUL :: more := by
  have hsplit : cstr s ++ s.dropWhile (· != NUL) = s := List.takeWhile_append_dropWhile
  have hhead := List.head?_dropWhile_not (· != NUL) s
  rw [h] at hsplit
  cases hrest : s.dropWhile (· != NUL) with
  | nil => exact .inl (by rw [← hsplit, hrest, List.append_nil])
  | cons b more =>
    rw [hrest] at hsplit hhead
    obtain rfl : b = NUL := by simpa using hhead
    exact .inr ⟨more, hsplit.symm⟩

/-- Octets from which a text is read, as many as its code has and with all the bits of it, are the code. -/
theorem decoded_code {data text : List Byte} {turns : Nat} (hlen : data.length = (encodeHuffman text).length)
    (hturns : 8 * data.length < turns) (hshort : 8 * data.length < 5 * HUFF_STR_LEN)
    (hbits : ∀ q, bitAt (encodeHuffman text) q = true → bitAt data q = true)
    (hread : huffLoop turns (Bits.ofOctets data) [] = some text) : data = encodeHuffman text := by
  have hcount := Bits.ofOctets_length data
  obtain ⟨hsize, hcode⟩ := encodeHuffman_length text
  obtain ⟨items, left, hitems, -, hloop⟩ := huffLoop_items turns (Bits.ofOctets data) [] (by omega)
    (by rw [List.length_nil]; omega)
  rw [hloop, Option.some.injEq, List.nil_append] at hread
  have htotal := congrArg List.length hitems
  rw [List.length_append, hcount] at htotal
  obtain ⟨hsame, htext⟩ : items.flatMap HuffItem.bits = text.flatMap huffmanCode ∧
      items.flatMap HuffItem.text = text := by
    rcases cstr_eq_cases hread with htext | ⟨more, htext⟩
    · rw [← htext]
      rcases items_code items with hsame | hlong
      · exact ⟨hsame, rfl⟩
      · rw [htext] at hlong
        omega
    · have hmore : (text.flatMap huffmanCode).length + 13 ≤ ((text ++ NUL :: more).flatMap huffmanCode).length := by
        rw [List.flatMap_append, List.length_append, List.flatMap_cons, List.length_append, huffmanCode_nul]
        omega
      rcases items_code items with hsame | hlong
      · rw [hsame, htext] at htotal
        omega
      · rw [htext] at hlong
        omega
  rw [hsame] at hitems htotal
  have hones : left = List.replicate left.length true := by
    refine List.eq_replicate_iff.mpr ⟨rfl, fun b hb => ?_⟩
    obtain ⟨j, hj, rfl⟩ := List.getElem_of_mem hb
    have hpack : bitAt (encodeHuffman text) ((text.flatMap huffmanCode).length + j) = true := by
      rw [← getD_ofOctets, hcode, List.getD_eq_getElem?_getD, List.getElem?_append_right (Nat.le_add_right _ _),
        Nat.add_sub_cancel_left, List.getElem?_replicate_of_lt (by omega)]
      rfl
    have hleft := hbits _ hpack
    rwa [← getD_ofOctets, hitems, List.getD_eq_getElem?_getD, List.getElem?_append_right (Nat.le_add_right _ _),
      Nat.add_sub_cancel_left, List.getElem?_eq_getElem hj, Option.getD_some] at hleft
  refine ofOctets_inj ?_
  rw [hitems, hcode, hones, show left.length =
    8 * (encodeHuffman text).length - (text.flatMap huffmanCode).length by omega]

/-- `hpack_decode` of a length in seven bits, the first bit set, and the octets behind it. -/
theorem hpackDecode_stored {buf data post : List Byte} {i maxI : Nat}
    (hdrop : buf.drop i = UInt8.ofNat (0x80 + data.length) :: (data ++ post)) (hshort : data.length < 127)
    (hmax : i + (data.length + 1) ≤ maxI) :
    hpackDecode buf i maxI =
      (huffLoop (8 * data.length + 1) (Bits.ofOctets data) []).map (·, i + (data.length + 1)) := by
  have hlt : data.length < 2 ^ 7 - 1 := hshort
  have hencode : encodeInt 0x80 7 data.length = [UInt8.ofNat (0x80 + data.length)] := by rw [encodeInt, if_pos hlt]
  have hnum := hpackGetnum_encodeInt buf (data ++ post) i 0x80 7 data.length (by rw [hencode, hdrop]; rfl)
    (by decide) (by decide) (by omega)
  have hfirst : buf[i]? = some (UInt8.ofNat (0x80 + data.length)) := by
    have h0 : (buf.drop i)[0]? = some (UInt8.ofNat (0x80 + data.length)) := by
      rw [hdrop]
      rfl
    rwa [List.getElem?_drop, Nat.add_zero] at h0
  have hhuff : UInt8.ofNat (0x80 + data.length) &&& 0x80 = 0x80 := by
    have hall : ∀ v : Fin 128, UInt8.ofNat (0x80 + v.val) &&& 0x80 = 0x80 := by decide
    exact hall ⟨data.length, by omega⟩
  have hdata : (buf.drop (i + 1)).take data.length = data := by
    rw [← List.drop_drop, hdrop, List.drop_succ_cons, List.drop_zero, List.take_left]
  have hmask : (0x7F : Byte) = UInt8.ofNat (2 ^ 7 - 1) := rfl
  rw [hencode, List.length_singleton] at hnum
  rw [hpackDecode, hfirst, hmask, hnum]
  dsimp only
  rw [if_neg (by omega), if_neg (by omega), if_pos hhuff, hdata]
  refine congrArg (Option.map · _) (funext fun s => ?_)
  rw [Nat.add_assoc, Nat.add_comm 1]

/-- What `hpack_encode` leaves in the buffer from `store` on: a length, and the code with the bits that were there
before and were not cleared. -/
theorem hpackEncode_bytes {bin : List Byte} {store : Nat} {load : List Byte} {lower : Bool}
    (hclear : store + (loadedText load lower).length < bin.length)
    (hfit : store + (encodeHuffman (loadedText load lower)).length < bin.length)
    (hshort : (encodeHuffman (loadedText load lower)).length < 127) :
    ∃ bin' data post, hpackEncode bin store load lower =
        some ((encodeHuffman (loadedText load lower)).length + 1, bin') ∧
      data.length = (encodeHuffman (loadedText load lower)).length ∧
      bin'.drop store = UInt8.ofNat (0x80 + data.length) :: (data ++ post) ∧
      bin'.drop (store + (data.length + 1)) = post ∧
      ∀ k < data.length, data.getD k 0 =
        (if k < (loadedText load lower).length then 0 else bin.getD (store + 1 + k) 0) |||
          (encodeHuffman (loadedText load lower)).getD k 0 := by
  obtain ⟨text, htext⟩ : ∃ text, text = loadedText load lower := ⟨_, rfl⟩
  have heq := hpackEncode_eq bin store load lower
  dsimp only at heq
  rw [show (if lower then (cstr load).map tolower else cstr load) = loadedText load lower from rfl] at heq
  rw [← htext] at heq hclear hfit hshort ⊢
  rw [if_pos ⟨hclear, hfit⟩, if_neg (Nat.not_le.mpr hshort)] at heq
  obtain ⟨out, hout⟩ : ∃ out, out =
    orBytes (clearedFor bin store (text.length + 1)) (store + 1) (encodeHuffman text) := ⟨_, rfl⟩
  have hcleared := length_clearedFor bin store (text.length + 1) hclear
  have houtlen : out.length = bin.length := by rw [hout, length_orBytes, hcleared]
  rw [show bin.take store ++ zeros (text.length + 1) ++ bin.drop (store + (text.length + 1)) =
    clearedFor bin store (text.length + 1) from rfl, ← hout] at heq
  have hdata : ((out.drop (store + 1)).take (encodeHuffman text).length).length = (encodeHuffman text).length := by
    rw [List.length_take, List.length_drop, houtlen]
    omega
  have hbehind : out.drop (store + 1 + (encodeHuffman text).length) =
      (out.drop (store + 1)).drop (encodeHuffman text).length := List.drop_drop.symm
  refine ⟨_, (out.drop (store + 1)).take (encodeHuffman text).length,
    out.drop (store + 1 + (encodeHuffman text).length), heq, hdata, ?_, ?_, ?_⟩
  · rw [List.drop_eq_getElem_cons (by rw [List.length_set, houtlen]; omega), List.getElem_set_self,
      List.drop_set_of_lt (Nat.lt_succ_self _), hdata, hbehind, List.take_append_drop]
  · rw [hdata, List.drop_set_of_lt (by omega), Nat.add_comm _ 1, Nat.add_assoc]
  · intro k hk
    rw [hdata] at hk
    have hcase : (store ≤ store + 1 + k ∧ store + 1 + k < store + (text.length + 1)) ↔ k < text.length := by omega
    rw [getD_take _ _ _ hk, getD_drop, hout, getD_orBytes _ _ _ _ (by omega), getD_clearedFor _ _ _ _ hclear,
      if_pos (Nat.le_add_right _ _), Nat.add_sub_cancel_left]
    simp only [hcase]

/-- The bits that were there before are in the code already exactly where the octets are the code. -/
theorem noStaleBits_iff {bin data text : List Byte} {store : Nat} (hlen : data.length = (encodeHuffman text).length)
    (hdata : ∀ k < data.length, data.getD k 0 =
      (if k < text.length then 0 else bin.getD (store + 1 + k) 0) ||| (encodeHuffman text).getD k 0) :
    NoStaleBits bin store text ↔ data = encodeHuffman text := by
  constructor
  · intro hclean
    refine ext_getD hlen fun k hk => ?_
    rw [hdata k hk]
    by_cases hcleared : k < text.length
    · rw [if_pos hcleared, UInt8.zero_or]
    · rw [if_neg hcleared]
      exact hclean k (Nat.not_lt.mp hcleared) (by omega)
  · intro hsame k hcleared hk
    have hbyte := hdata k (by omega)
    rw [if_neg (Nat.not_lt.mpr hcleared), hsame] at hbyte
    exact hbyte.symm

/-- The octets have all the bits of the code. -/
theorem stored_bits {bin data text : List Byte} {store : Nat} (hlen : data.length = (encodeHuffman text).length)
    (hdata : ∀ k < data.length, data.getD k 0 =
      (if k < text.length then 0 else bin.getD (store + 1 + k) 0) ||| (encodeHuffman text).getD k 0) (q : Nat)
    (hq : bitAt (encodeHuffman text) q = true) : bitAt data q = true := by
  unfold bitAt at hq ⊢
  by_cases hk : q / 8 < data.length
  · rw [hdata _ hk, UInt8.toNat_or, Nat.testBit_or, hq, Bool.or_true]
  · rw [List.getD_eq_default _ _ (by omega)] at hq
    rw [show (0 : Byte).toNat = 0 from rfl, Nat.zero_testBit] at hq
    cases hq

/-- A string is stored and read back exactly where the bytes that are cleared and those of its code have their place,
the code has less than 127 bytes, and what was in the buffer before adds no bits to it. -/
theorem hpackEncode_roundTrips_iff (bin : List Byte) (store : Nat) (load : List Byte) (lower : Bool) :
    RoundTrips bin store load lower ↔
      store + (loadedText load lower).length < bin.length ∧
      store + (encodeHuffman (loadedText load lower)).length < bin.length ∧
      (encodeHuffman (loadedText load lower)).length < 127 ∧ NoStaleBits bin store (loadedText load lower) := by
  constructor
  · rintro ⟨n, bin', huffman, hencode, hliteral, hdecode⟩
    obtain ⟨hclear, hfit, hlen', hend, -⟩ := hpackEncode_part (loadedText load lower) rfl hencode
    have hshort : (encodeHuffman (loadedText load lower)).length < 127 := by
      by_contra hlong
      have heq := hpackEncode_eq bin store load lower
      dsimp only at heq
      rw [show (if lower then (cstr load).map tolower else cstr load) = loadedText load lower from rfl, hencode,
        if_pos ⟨hclear, hfit⟩, if_pos (Nat.not_lt.mp hlong)] at heq
      obtain ⟨rfl, -⟩ := Prod.mk.inj (Option.some.inj heq)
      exact absurd (readsLiteral_length hliteral) (Nat.lt_irrefl _)
    obtain ⟨bin'', data, post, hencode', hlen, hdrop, -, hdata⟩ := hpackEncode_bytes hclear hfit hshort
    rw [hencode, Option.some.injEq, Prod.mk.injEq] at hencode'
    obtain ⟨rfl, rfl⟩ := hencode'
    have hread := hdecode _ (Nat.le_refl _)
    rw [hpackDecode_stored hdrop (by omega) (by omega)] at hread
    obtain ⟨text, hloop, hpair⟩ := Option.map_eq_some_iff.mp hread
    have htext : text = loadedText load lower := (Prod.mk.inj hpair).1
    rw [htext] at hloop
    have hsize : HUFF_STR_LEN = 2048 := rfl
    have hcode := decoded_code hlen (by omega) (by omega) (stored_bits hlen hdata) hloop
    exact ⟨hclear, hfit, hshort, (noStaleBits_iff hlen hdata).mpr hcode⟩
  · rintro ⟨hclear, hfit, hshort, hclean⟩
    obtain ⟨bin', data, post, hencode, hlen, hdrop, hpost, hdata⟩ := hpackEncode_bytes hclear hfit hshort
    have hsame := (noStaleBits_iff hlen hdata).mp hclean
    have hlt : data.length < 2 ^ 7 - 1 := by omega
    have hliteral : (Literal.mk true (loadedText load lower)).encode = UInt8.ofNat (0x80 + data.length) :: data := by
      rw [Literal.encode, Literal.body, if_pos rfl, ← hsame, if_pos rfl, encodeInt, if_pos hlt]
      rfl
    have hstored : bin'.drop store = (Literal.mk true (loadedText load lower)).encode ++ post := by
      rw [hliteral, hdrop, List.cons_append]
    have hcount : (Literal.mk true (loadedText load lower)).encode.length = data.length + 1 := by
      rw [hliteral, List.length_cons]
    refine ⟨_, bin', true, hencode, ?_, ?_⟩
    · rw [← hlen, hpost, hstored]
      exact readsLiteral_encode _ _
    · intro maxI hmax
      have hbody : (Literal.mk true (loadedText load lower)).body = data := by rw [Literal.body, if_pos rfl, hsame]
      have hdecode := hpackDecode_encode bin' post store maxI ⟨true, loadedText load lower⟩ hstored
        (by rw [hbody]; omega) (by rw [hcount]; omega)
      rw [hdecode, hcount, hlen, cstr_of_no_nul _ (loadedText_noNul load lower)]

/-- The byte 1 has a code of 23 bits, of which the last 8 come to stand on a byte that was not cleared. -/
theorem hpackEncode_roundTrips_stale : ¬ RoundTrips (List.replicate 8 0xFF) 0 [1] false := by
  rintro ⟨n, bin', huffman, hencode, -, hdecode⟩
  have heq := hpackEncode_eq (List.replicate 8 0xFF) 0 [1] false
  have hvalue : hpackEncode (List.replicate 8 0xFF) 0 [1] false =
      some (4, [0x83, 0xFF, 0xFF, 0xFF, 0xFF, 0xFF, 0xFF, 0xFF]) := by
    rw [heq]
    decide +kernel
  rw [hvalue, Option.some.injEq, Prod.mk.injEq] at hencode
  obtain ⟨rfl, rfl⟩ := hencode
  have hread := hdecode 4 (Nat.le_refl _)
  exact absurd hread (by decide +kernel)

end CivetWeb
