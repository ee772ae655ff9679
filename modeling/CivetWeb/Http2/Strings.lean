import CivetWeb.Http2.CodeTable

namespace CivetWeb

open Hpack

theorem octet_mask (flags bits v : Nat) (hv : v < 2 ^ bits) (hflags : flags % 2 ^ bits = 0)
    (hbits : flags + 2 ^ bits ≤ 256) :
    UInt8.ofNat (flags + v) &&& UInt8.ofNat (2 ^ bits - 1) = UInt8.ofNat v := by
  apply UInt8.toNat_inj.mp
  have hsum : (UInt8.ofNat (flags + v)).toNat = flags + v := by
    rw [UInt8.toNat_ofNat', Nat.mod_eq_of_lt (by omega)]
  have hmask : (UInt8.ofNat (2 ^ bits - 1)).toNat = 2 ^ bits - 1 := by
    rw [UInt8.toNat_ofNat', Nat.mod_eq_of_lt (by omega)]
  rw [UInt8.toNat_and, hsum, hmask, Nat.and_two_pow_sub_one_eq_mod, UInt8.toNat_ofNat',
    Nat.mod_eq_of_lt (by omega : v < 2 ^ 8), Nat.add_mod, hflags, Nat.zero_add, Nat.mod_mod,
    Nat.mod_eq_of_lt hv]

theorem shiftedInt_eq (b m : Nat) (hm : m < 32) (h : b * 2 ^ m < 2 ^ 31) :
    shiftedInt b m = b * 2 ^ m := by
  rw [shiftedInt, Nat.mod_eq_of_lt hm, Nat.mod_eq_of_lt (by omega), if_pos h]

theorem hpackGetnumLoop_rest (turns n num m used : Nat) (post : List Byte) (hturns : n < turns)
    (hm : m < 32) (hsmall : n * 2 ^ m < 2 ^ 31) (hnum : num + n * 2 ^ m < 2 ^ 64) :
    hpackGetnumLoop (encodeRest turns n ++ post) num m used =
      some (num + n * 2 ^ m, used + (encodeRest turns n).length) := by
  induction turns generalizing n num m used with
  | zero => omega
  | succ turns ih =>
    rw [encodeRest]
    by_cases hlast : n < 128
    · have hlow : UInt8.ofNat n &&& 0x7F = UInt8.ofNat n := by
        simpa using octet_mask 0 7 n hlast rfl (by decide)
      have hstop : ¬ UInt8.ofNat n &&& 0x80 = 0x80 := by
        have hall : ∀ n : Fin 128, ¬ UInt8.ofNat n.val &&& 0x80 = 0x80 := by decide
        exact hall ⟨n, hlast⟩
      have hv : (UInt8.ofNat n).toNat = n := by
        rw [UInt8.toNat_ofNat', Nat.mod_eq_of_lt (by omega)]
      simp only [if_pos hlast, List.singleton_append, hpackGetnumLoop, hlow, hv, if_neg hstop,
        shiftedInt_eq n m hm hsmall, Nat.mod_eq_of_lt hnum, List.length_singleton]
    · have hlow : UInt8.ofNat (128 + n % 128) &&& 0x7F = UInt8.ofNat (n % 128) :=
        octet_mask 128 7 (n % 128) (Nat.mod_lt _ (by decide)) rfl (by decide)
      have hmore : UInt8.ofNat (128 + n % 128) &&& 0x80 = 0x80 := by
        have hall : ∀ r : Fin 128, UInt8.ofNat (128 + r.val) &&& 0x80 = 0x80 := by decide
        exact hall ⟨n % 128, Nat.mod_lt _ (by decide)⟩
      have hv : (UInt8.ofNat (n % 128)).toNat = n % 128 := by
        rw [UInt8.toNat_ofNat', Nat.mod_eq_of_lt (by omega)]
      have hsplit : n * 2 ^ m = n % 128 * 2 ^ m + n / 128 * 2 ^ (m + 7) := by
        have hpow : (2 : Nat) ^ (m + 7) = 128 * 2 ^ m := by
          rw [Nat.pow_add, Nat.mul_comm]
        calc n * 2 ^ m = (128 * (n / 128) + n % 128) * 2 ^ m := by rw [Nat.div_add_mod]
          _ = n % 128 * 2 ^ m + n / 128 * 2 ^ (m + 7) := by rw [hpow]; ring
      have hm7 : m + 7 < 32 := by
        by_contra hbig
        have hpow : (2 : Nat) ^ 25 ≤ 2 ^ m := Nat.pow_le_pow_right (by decide) (by omega)
        have hmul : 128 * 2 ^ 25 ≤ n * 2 ^ m := Nat.mul_le_mul (by omega) hpow
        omega
      have hrest := ih (n / 128) (num + n % 128 * 2 ^ m) (m + 7) (used + 1) (by omega) hm7 (by omega)
        (by omega)
      simp only [if_neg hlast, List.cons_append, hpackGetnumLoop, hlow, hv, if_pos hmore,
        shiftedInt_eq (n % 128) m hm (by omega), Nat.mod_eq_of_lt (by omega : num + n % 128 * 2 ^ m <
          2 ^ 64), hrest, List.length_cons, Option.some.injEq, Prod.mk.injEq]
      omega

/-- An integer as it is encoded is read back, whatever the flags above it are. -/
theorem hpackGetnum_encodeInt (buf post : List Byte) (i flags bits n : Nat)
    (hdrop : buf.drop i = encodeInt flags bits n ++ post) (hflags : flags % 2 ^ bits = 0)
    (hbits : flags + 2 ^ bits ≤ 256) (hn : n < 2 ^ 30) :
    hpackGetnum buf i (UInt8.ofNat (2 ^ bits - 1)) =
      some (n, i + (encodeInt flags bits n).length) := by
  have hpos : 0 < 2 ^ bits := Nat.two_pow_pos bits
  have hoctet (v : Nat) (hv : v < 2 ^ bits) : (UInt8.ofNat v).toNat = v := by
    rw [UInt8.toNat_ofNat', Nat.mod_eq_of_lt (by omega)]
  rw [hpackGetnum, hdrop, encodeInt]
  by_cases hshort : n < 2 ^ bits - 1
  · have hmask := octet_mask flags bits n (by omega) hflags hbits
    have hne : ¬ UInt8.ofNat n = UInt8.ofNat (2 ^ bits - 1) := by
      intro heq
      have := congrArg UInt8.toNat heq
      rw [hoctet n (by omega), hoctet (2 ^ bits - 1) (by omega)] at this
      omega
    simp only [if_pos hshort, List.singleton_append, hmask, if_neg hne, hoctet n (by omega),
      List.length_singleton]
  · have hmask := octet_mask flags bits (2 ^ bits - 1) (by omega) hflags hbits
    have hrest := hpackGetnumLoop_rest (n + 1) (n - (2 ^ bits - 1)) (2 ^ bits - 1) 0 0 post (by omega)
      (by decide) (by omega) (by omega)
    simp only [if_neg hshort, List.cons_append, hmask, if_true, hoctet (2 ^ bits - 1) (by omega),
      hrest, Option.map_some, List.length_cons, Option.some.injEq, Prod.mk.injEq]
    omega

theorem huffCollect_append (accu bc a k : Nat) (bits left rest : List Bool)
    (h : huffCollect accu bc bits = some (a, k, left)) :
    huffCollect accu bc (bits ++ rest) = some (a, k, left ++ rest) := by
  induction bits generalizing accu bc with
  | nil => cases h
  | cons b bits ih =>
    rw [List.cons_append]
    unfold huffCollect at h ⊢
    dsimp only at h ⊢
    split_ifs at h ⊢ with hmore
    · exact ih _ _ h
    · obtain ⟨rfl, rfl, rfl⟩ := Prod.mk.injEq _ _ _ _ ▸ Option.some.inj h
      rfl

/-- The code of every octet is collected to its last bit, and found in the decoding table. -/
theorem huffCollect_code (b : Byte) :
    huffCollect 0 0 (huffmanCode b) =
        some ((huffmanTable.getD b.toNat (0, 0)).1, (huffmanTable.getD b.toNat (0, 0)).2, []) ∧
      (huffFind (huffmanTable.getD b.toNat (0, 0)).1 (huffmanTable.getD b.toNat (0, 0)).2).map
        HuffDec.decoded = some b ∧
      5 ≤ (huffmanCode b).length := by
  obtain ⟨e, he, rfl⟩ := exists_huffDec b
  obtain ⟨hcode, hlen⟩ := huffDec_table e he
  rw [huffmanCode, Bits.ofNat_length, hcode]
  refine ⟨huffCollect_entry he, ?_, hlen⟩
  rw [huffFind_entry he, Option.map_some]

theorem huffCollect_padding : ∀ k < 8, huffCollect 0 0 (List.replicate k true) = none := by
  decide

theorem huffCollect_octet (b : Byte) (rest : List Bool) : ∃ accu bc,
    huffCollect 0 0 (huffmanCode b ++ rest) = some (accu, bc, rest) ∧
      (huffFind accu bc).map HuffDec.decoded = some b := by
  obtain ⟨hcollect, hfind, -⟩ := huffCollect_code b
  exact ⟨_, _, huffCollect_append 0 0 _ _ _ [] rest hcollect, hfind⟩

/-- Huffman encoded octets are decoded; what is left of the last octet is no code. -/
theorem huffLoop_text (turns k : Nat) (text str : List Byte) (hk : k < 8)
    (hturns : text.length < turns) (hlen : str.length + text.length < HUFF_STR_LEN) :
    huffLoop turns (text.flatMap huffmanCode ++ List.replicate k true) str =
      some (cstr (str ++ text)) := by
  induction text generalizing turns str with
  | nil =>
    obtain ⟨turns, rfl⟩ : ∃ t, turns = t + 1 := ⟨turns - 1, by omega⟩
    simp [huffLoop, huffCollect_padding k hk]
  | cons b text ih =>
    obtain ⟨turns, rfl⟩ : ∃ t, turns = t + 1 := ⟨turns - 1, by omega⟩
    obtain ⟨accu, bc, hcollect, hfind⟩ :=
      huffCollect_octet b (text.flatMap huffmanCode ++ List.replicate k true)
    rw [List.length_cons] at hturns hlen
    have hroom : (str ++ [b]).length ≠ HUFF_STR_LEN := by
      rw [List.length_append, List.length_singleton]
      omega
    have hrest := ih turns (str ++ [b]) (by omega)
      (by rw [List.length_append, List.length_singleton]; omega)
    rw [List.flatMap_cons, List.append_assoc, huffLoop, hcollect]
    simp only [hfind, Option.toList_some, if_neg hroom, hrest, List.append_assoc,
      List.singleton_append]

theorem flatMap_huffmanCode_length (text : List Byte) :
    5 * text.length ≤ (text.flatMap huffmanCode).length := by
  induction text with
  | nil => exact Nat.le_refl _
  | cons b text ih =>
    obtain ⟨-, -, hb⟩ := huffCollect_code b
    rw [List.flatMap_cons, List.length_append, List.length_cons]
    omega

theorem encodeInt_first (flags bits n : Nat) : ∃ v < 2 ^ bits, ∃ tail,
    encodeInt flags bits n = UInt8.ofNat (flags + v) :: tail := by
  have hpos : 0 < 2 ^ bits := Nat.two_pow_pos bits
  by_cases h : n < 2 ^ bits - 1
  · exact ⟨n, by omega, [], by rw [encodeInt, if_pos h]⟩
  · exact ⟨2 ^ bits - 1, by omega, _, by rw [encodeInt, if_neg h]⟩

theorem encode_first (s : Literal) : ∃ b tail, s.encode = b :: tail ∧
    (b &&& 0x80 = 0x80 ↔ s.huffman = true) := by
  have hplain : ∀ v : Fin 128, ¬ UInt8.ofNat (0 + v.val) &&& 0x80 = 0x80 := by decide
  have hhuff : ∀ v : Fin 128, UInt8.ofNat (0x80 + v.val) &&& 0x80 = 0x80 := by decide
  obtain ⟨v, hv, tail, hint⟩ := encodeInt_first (if s.huffman then 0x80 else 0) 7 s.body.length
  refine ⟨_, tail ++ s.body, by rw [Literal.encode, hint, List.cons_append], ?_⟩
  cases h : s.huffman with
  | false => simpa using hplain ⟨v, hv⟩
  | true => simpa using hhuff ⟨v, hv⟩

/-- A literal as it is encoded is read back as a C string. -/
theorem hpackDecode_encode (buf post : List Byte) (i maxI : Nat) (s : Literal)
    (hdrop : buf.drop i = s.encode ++ post) (hlen : s.body.length ≤ 1024)
    (hmax : i + s.encode.length ≤ maxI) :
    hpackDecode buf i maxI = some (cstr s.text, i + s.encode.length) := by
  obtain ⟨b, tail, hencode, hhuffman⟩ := encode_first s
  have hfirst : buf[i]? = some b := by
    have h0 : (buf.drop i)[0]? = some b := by
      rw [hdrop, hencode]
      rfl
    rwa [List.getElem?_drop, Nat.add_zero] at h0
  have hnum := hpackGetnum_encodeInt buf (s.body ++ post) i (if s.huffman then 0x80 else 0) 7
    s.body.length (by rw [hdrop, Literal.encode, List.append_assoc])
    (by cases s.huffman <;> rfl) (by cases s.huffman <;> decide) (by omega)
  have hsize : s.encode.length =
      (encodeInt (if s.huffman then 0x80 else 0) 7 s.body.length).length + s.body.length := by
    rw [Literal.encode, List.length_append]
  have hdata : (buf.drop (i + (encodeInt (if s.huffman then 0x80 else 0) 7 s.body.length).length)).take
      s.body.length = s.body := by
    rw [← List.drop_drop, hdrop, Literal.encode, List.append_assoc, List.drop_left, List.take_left]
  have hmask : (0x7F : Byte) = UInt8.ofNat (2 ^ 7 - 1) := rfl
  rw [hpackDecode, hfirst, hmask, hnum]
  dsimp only
  rw [if_neg (by omega), if_neg (by omega), hdata]
  by_cases hh : s.huffman = true
  · rw [if_pos (hhuffman.mpr hh)]
    obtain ⟨k, hk, hbits⟩ := Bits.ofOctets_pack (s.text.flatMap huffmanCode)
    have hbody : s.body = Bits.pack (s.text.flatMap huffmanCode) := by
      rw [Literal.body, if_pos hh, encodeHuffman]
    have hshort : 5 * s.text.length ≤ 8 * s.body.length := by
      have hoctets := Bits.ofOctets_length s.body
      have htext := flatMap_huffmanCode_length s.text
      rw [hbody, hbits, List.length_append] at hoctets
      rw [hbody]
      omega
    have hloop := huffLoop_text (8 * s.body.length + 1) k s.text [] hk (by omega)
      (by rw [HUFF_STR_LEN]; simp only [List.length_nil]; omega)
    rw [hbody, hbits, ← hbody, hloop, Option.map_some, List.nil_append, hsize, Nat.add_assoc]
  · have hbody : s.body = s.text := by
      rw [Literal.body, if_neg hh]
    rw [if_neg (fun h => hh (hhuffman.mp h)), hsize, Nat.add_assoc, hbody]

end CivetWeb
