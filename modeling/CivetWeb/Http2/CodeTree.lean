import CivetWeb.Http2.Strings

namespace CivetWeb

open Hpack

/-! ### The codes that the decoder finds -/

/-- What a turn of the decoder reads: the code of a byte, or the end code and a bit behind it, which stores nothing. -/
inductive HuffItem where
  | octet (b : Byte)
  | passed (bit : Bool)
  deriving DecidableEq, Repr

def HuffItem.bits : HuffItem → List Bool
  | .octet b => huffmanCode b
  | .passed bit => List.replicate 30 true ++ [bit]

def HuffItem.text : HuffItem → List Byte
  | .octet b => [b]
  | .passed _ => []

theorem HuffItem.bits_length (item : HuffItem) :
    5 * item.text.length ≤ item.bits.length ∧ 0 < item.bits.length := by
  cases item with
  | octet b =>
    obtain ⟨-, -, hb⟩ := huffCollect_code b
    exact ⟨hb, Nat.lt_of_lt_of_le (by decide) hb⟩
  | passed bit =>
    have hlen : (HuffItem.passed bit).bits.length = 31 := by
      rw [HuffItem.bits, List.length_append, List.length_replicate, List.length_singleton]
    rw [hlen]
    exact ⟨Nat.zero_le _, Nat.succ_pos _⟩

/-- Items without an end code are the codes of their text; an end code takes 31 bits. -/
theorem items_code (items : List HuffItem) :
    items.flatMap HuffItem.bits = (items.flatMap HuffItem.text).flatMap huffmanCode ∨
      ((items.flatMap HuffItem.text).flatMap huffmanCode).length + 31 ≤ (items.flatMap HuffItem.bits).length := by
  induction items with
  | nil => exact .inl rfl
  | cons item items ih =>
    rw [List.flatMap_cons, List.flatMap_cons, List.flatMap_append, List.length_append, List.length_append]
    cases item with
    | octet b =>
      have hcode : (HuffItem.octet b).text.flatMap huffmanCode = (HuffItem.octet b).bits := List.flatMap_singleton ..
      rw [hcode]
      rcases ih with hsame | hlong
      · exact .inl (by rw [hsame])
      · exact .inr (by omega)
    | passed bit =>
      have hlen : (HuffItem.passed bit).bits.length = 31 := by
        rw [HuffItem.bits, List.length_append, List.length_replicate, List.length_singleton]
      have hnone : (HuffItem.passed bit).text.flatMap huffmanCode = [] := rfl
      rw [hnone, hlen, List.length_nil]
      rcases ih with hsame | hlong
      · exact .inr (by rw [hsame]; omega)
      · exact .inr (by omega)

/-- The bits that the loop reads are those of its number. -/
theorem huffCollect_walk {fuel accu bc : Nat} (h : walksEnd fuel accu bc = true) (bits : List Bool) :
    huffCollect accu bc bits = none ∨
      ∃ a k read rest, bits = read ++ rest ∧ huffCollect accu bc bits = some (a, k, rest) ∧
        Bits.ofNat bc accu ++ read = Bits.ofNat k a ∧ foundCode a k = true := by
  induction fuel generalizing accu bc bits with
  | zero => cases h
  | succ fuel ih =>
    cases bits with
    | nil => exact .inl rfl
    | cons bit bits =>
      have hbit := List.all_eq_true.mp h bit (by cases bit <;> decide)
      dsimp only at hbit
      unfold huffCollect
      dsimp only
      by_cases hmore : bc + 1 < 5 ∨ hpackHuffEndCode.getD (bc + 1 - 5) 0 < 2 * accu + bit.toNat
      · rw [if_pos hmore] at hbit ⊢
        rcases ih hbit bits with hnone | ⟨a, k, read, rest, rfl, hsome, hread, hfound⟩
        · exact .inl hnone
        · refine .inr ⟨a, k, bit :: read, rest, rfl, hsome, ?_, hfound⟩
          rw [← hread, ofNat_concat, List.append_assoc]
          rfl
      · rw [if_neg hmore] at hbit ⊢
        exact .inr ⟨_, _, [bit], bits, rfl, rfl, (ofNat_concat bc accu bit).symm, hbit⟩

theorem huffmanEnd_ones : Bits.ofNat 30 (2 ^ 30 - 1) = List.replicate 30 true := by decide +kernel

/-- A turn of the decoder reads an item, or has no bits left for one. -/
theorem huffCollect_item (bits : List Bool) :
    huffCollect 0 0 bits = none ∨
      ∃ (item : HuffItem) (accu bc : Nat) (rest : List Bool), bits = item.bits ++ rest ∧
        huffCollect 0 0 bits = some (accu, bc, rest) ∧
        ((huffFind accu bc).map HuffDec.decoded).toList = item.text := by
  rcases huffCollect_walk walksEnd_start bits with hnone | ⟨a, k, read, rest, rfl, hsome, hread, hfound⟩
  · exact .inl hnone
  · have hbits : read = Bits.ofNat k a := hread
    unfold foundCode at hfound
    cases hfind : huffFind a k with
    | some e =>
      rw [hfind] at hfound
      refine .inr ⟨.octet e.decoded, a, k, rest, ?_, hsome, ?_⟩
      · rw [HuffItem.bits, eq_of_beq hfound, hbits]
      · rw [hfind]
        rfl
    | none =>
      rw [hfind] at hfound
      dsimp only at hfound
      unfold passedEnd at hfound
      rw [Bool.and_eq_true, beq_iff_eq, beq_iff_eq] at hfound
      obtain ⟨rfl, hones⟩ := hfound
      refine .inr ⟨.passed (decide (a % 2 = 1)), a, 31, rest, ?_, hsome, ?_⟩
      · have hvalue : a = 2 * (2 ^ 30 - 1) + (decide (a % 2 = 1)).toNat := by
          by_cases hodd : a % 2 = 1
          · rw [decide_eq_true hodd, Bool.toNat_true]
            omega
          · rw [decide_eq_false hodd, Bool.toNat_false]
            omega
        rw [HuffItem.bits, hbits]
        conv => lhs; rw [hvalue, ofNat_concat, huffmanEnd_ones]
      · rw [hfind]
        rfl

/-- The items of a string, read one after the other, with bits behind them that are no item. -/
theorem huffLoop_items (turns : Nat) (bits : List Bool) (str : List Byte) (hturns : bits.length < turns)
    (hlen : 5 * str.length + bits.length < 5 * HUFF_STR_LEN) :
    ∃ (items : List HuffItem) (left : List Bool), bits = items.flatMap HuffItem.bits ++ left ∧
      huffCollect 0 0 left = none ∧ huffLoop turns bits str = some (cstr (str ++ items.flatMap HuffItem.text)) := by
  induction turns generalizing bits str with
  | zero => exact absurd hturns (Nat.not_lt_zero _)
  | succ turns ih =>
    rcases huffCollect_item bits with hnone | ⟨item, accu, bc, rest, hbits, hsome, htext⟩
    · refine ⟨[], bits, rfl, hnone, ?_⟩
      rw [huffLoop, hnone, List.flatMap_nil, List.append_nil]
    · have hitem := item.bits_length
      have hcount := congrArg List.length hbits
      rw [List.length_append] at hcount
      have hroom : ¬ (str ++ item.text).length = HUFF_STR_LEN := by
        rw [List.length_append]
        omega
      obtain ⟨items, left, hrest, hleft, hloop⟩ := ih rest (str ++ item.text) (by omega)
        (by rw [List.length_append]; omega)
      refine ⟨item :: items, left, ?_, hleft, ?_⟩
      · rw [List.flatMap_cons, List.append_assoc, ← hrest, hbits]
      · rw [huffLoop, hsome]
        dsimp only
        rw [htext, if_neg hroom, hloop, List.flatMap_cons, List.append_assoc]

end CivetWeb
