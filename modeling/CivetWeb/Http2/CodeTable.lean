import CivetWeb.Lib.Hpack
import CivetWeb.Http2.Hpack
import Mathlib.Data.List.Nodup

namespace CivetWeb

open Hpack

/-! ### The decoding table -/

/-- The bytes that a table decodes to, as the bits of a number. -/
def decodedBytes (table : List HuffDec) : Nat :=
  table.foldr (fun e mask => mask ||| 1 <<< e.decoded.toNat) 0

theorem mem_of_decodedBytes (table : List HuffDec) (b : Byte)
    (h : (decodedBytes table).testBit b.toNat = true) : ∃ e ∈ table, e.decoded = b := by
  induction table with
  | nil => simp [decodedBytes] at h
  | cons e table ih =>
    rw [decodedBytes, List.foldr_cons, Nat.testBit_or, Bool.or_eq_true] at h
    rcases h with h | h
    · obtain ⟨e', he', hb⟩ := ih h
      exact ⟨e', List.mem_cons_of_mem _ he', hb⟩
    · rw [Nat.one_shiftLeft, Nat.testBit_two_pow, decide_eq_true_eq] at h
      exact ⟨e, List.mem_cons_self, UInt8.toNat_inj.mp h⟩

theorem huffDec_bytes : decodedBytes (hpackHuffDec.take 256) = 2 ^ 256 - 1 := by decide +kernel

theorem exists_huffDec (b : Byte) : ∃ e ∈ hpackHuffDec.take 256, e.decoded = b := by
  refine mem_of_decodedBytes (hpackHuffDec.take 256) b ?_
  rw [huffDec_bytes, Nat.testBit_two_pow_sub_one]
  exact decide_eq_true b.toNat_lt

theorem huffDec_table : ∀ e ∈ hpackHuffDec.take 256,
    huffmanTable.getD e.decoded.toNat (0, 0) = (e.encoded, e.bitcount) ∧ 5 ≤ e.bitcount := by
  have hparts {p : HuffDec → Prop} {table : List HuffDec} (hfront : ∀ e ∈ table.take 64, p e)
      (hback : ∀ e ∈ table.drop 64, p e) : ∀ e ∈ table, p e := by
    rw [← List.take_append_drop 64 table]
    exact List.forall_mem_append.mpr ⟨hfront, hback⟩
  refine hparts ?_ (hparts ?_ (hparts ?_ ?_))
  all_goals decide +kernel

theorem huffDec_codes (e : HuffDec) (he : e ∈ hpackHuffDec.take 256) :
    Bits.ofNat e.bitcount e.encoded = huffmanCode e.decoded ∧ 0 < e.bitcount := by
  obtain ⟨hcode, hpos⟩ := huffDec_table e he
  refine ⟨?_, by omega⟩
  rw [huffmanCode, hcode]

theorem huffDec_sorted : (hpackHuffDec.take 256).IsChain (·.encoded < ·.encoded) := by decide +kernel

theorem huffDec_start :
    ∀ x ∈ (hpackHuffDec.take 256).zipIdx, hpackHuffStartIndex.getD (x.1.bitcount - 5) 0 ≤ x.2 := by
  decide +kernel

/-- The codes grow along the table, and those of a length start at its index: an entry is found for its code. -/
theorem huffFind_entry {e : HuffDec} (he : e ∈ hpackHuffDec.take 256) :
    huffFind e.encoded e.bitcount = some e := by
  obtain ⟨i, hi, hget⟩ := List.getElem_of_mem he
  have hstart : hpackHuffStartIndex.getD (e.bitcount - 5) 0 ≤ i :=
    huffDec_start (e, i) (List.mk_mem_zipIdx_iff_getElem?.mpr (by rw [List.getElem?_eq_getElem hi, hget]))
  have hmem : e ∈ (hpackHuffDec.take 256).drop (hpackHuffStartIndex.getD (e.bitcount - 5) 0) :=
    List.mem_drop_iff_getElem.mpr ⟨i - hpackHuffStartIndex.getD (e.bitcount - 5) 0, by omega, by
      simp only [Nat.add_sub_of_le hstart, hget]⟩
  have hnodup : ((hpackHuffDec.take 256).map HuffDec.encoded).Nodup := by
    rw [List.Nodup, List.pairwise_map]
    exact (List.isChain_iff_pairwise.mp huffDec_sorted).imp fun hlt => Nat.ne_of_lt hlt
  unfold huffFind
  have hsome : (((hpackHuffDec.take 256).drop (hpackHuffStartIndex.getD (e.bitcount - 5) 0)).find?
      (·.encoded == e.encoded)).isSome = true :=
    List.find?_isSome.mpr ⟨e, hmem, beq_self_eq_true e.encoded⟩
  obtain ⟨e', he'⟩ := Option.isSome_iff_exists.mp hsome
  have hcode : e'.encoded = e.encoded := by simpa using List.find?_some he'
  have hsame := List.inj_on_of_nodup_map hnodup (List.mem_of_mem_drop (List.mem_of_find?_eq_some he')) he hcode
  rw [he', hsame]

/-! ### The ways of the decoder -/

/-- The number that the loop of `hpack_decode` comes to where it has read the 30 ones of the end code: a bit more
than the code has, in no entry of the table. -/
def passedEnd (accu bc : Nat) : Bool := bc == 31 && accu / 2 == 2 ^ 30 - 1

/-- Where the loop ends, it has the code of the byte that is found for it, or has passed the end code. -/
def foundCode (accu bc : Nat) : Bool :=
  match huffFind accu bc with
  | some e => huffmanCode e.decoded == Bits.ofNat bc accu
  | none => passedEnd accu bc

theorem foundCode_entry {e : HuffDec} (he : e ∈ hpackHuffDec.take 256) : foundCode e.encoded e.bitcount = true := by
  unfold foundCode
  rw [huffFind_entry he, (huffDec_codes e he).1]
  exact beq_self_eq_true _

/-- All the ways that the loop can take from a number of `bc` bits on, with at most `fuel` bits more. -/
def walksEnd : Nat → Nat → Nat → Bool
  | 0, _, _ => false
  | fuel + 1, accu, bc => [false, true].all fun bit =>
    let accu := 2 * accu + bit.toNat
    let bc := bc + 1
    if bc < 5 ∨ hpackHuffEndCode.getD (bc - 5) 0 < accu then walksEnd fuel accu bc else foundCode accu bc

/-- The end of a way at the next entry of the decoding table, or behind the last one. -/
def endAt (accu bc : Nat) : List HuffDec → Option (List HuffDec)
  | e :: table => if e.encoded = accu ∧ e.bitcount = bc then some table else none
  | [] => if foundCode accu bc then some [] else none

/-- The same ways, from left to right, along the entries of the decoding table at their ends: what is left of the
table. -/
def walkTable : Nat → Nat → Nat → List HuffDec → Option (List HuffDec)
  | 0, _, _, _ => none
  | fuel + 1, accu, bc, table =>
    let turn (bit : Bool) (table : List HuffDec) :=
      let accu := 2 * accu + bit.toNat
      let bc := bc + 1
      if bc < 5 ∨ hpackHuffEndCode.getD (bc - 5) 0 < accu then walkTable fuel accu bc table
      else endAt accu bc table
    (turn false table).bind (turn true)

theorem walkTable_start : walkTable 31 0 0 (hpackHuffDec.take 256) = some [] := by decide +kernel

theorem ofNat_concat (bc accu : Nat) (bit : Bool) :
    Bits.ofNat (bc + 1) (2 * accu + bit.toNat) = Bits.ofNat bc accu ++ [bit] := by
  unfold Bits.ofNat
  rw [List.range_succ, List.map_append, List.map_singleton]
  congr 1
  · refine List.map_congr_left fun i hi => ?_
    have hlt := List.mem_range.mp hi
    obtain ⟨j, hj⟩ : ∃ j, bc - 1 - i = j := ⟨_, rfl⟩
    have hj' : bc + 1 - 1 - i = j + 1 := by omega
    have hhalf : (2 * accu + bit.toNat) / 2 = accu := by
      have hbit := Bool.toNat_lt bit
      omega
    rw [hj, hj', Nat.testBit_succ, hhalf]
  · rw [Nat.add_sub_cancel, Nat.sub_self, Nat.testBit_zero]
    cases bit <;> simp

/-- The way from a number to the code of an entry. -/
def WayTo (accu bc : Nat) (e : HuffDec) : Prop :=
  ∃ path, Bits.ofNat bc accu ++ path = Bits.ofNat e.bitcount e.encoded ∧
    huffCollect accu bc path = some (e.encoded, e.bitcount, [])

/-- The walk along the table has a way to each entry that it takes, and all its ways end. -/
theorem walkTable_spec {fuel accu bc : Nat} {table left : List HuffDec}
    (hentries : ∀ e ∈ table, foundCode e.encoded e.bitcount = true)
    (h : walkTable fuel accu bc table = some left) :
    walksEnd fuel accu bc = true ∧ ∃ taken, table = taken ++ left ∧ ∀ e ∈ taken, WayTo accu bc e := by
  induction fuel generalizing accu bc table left with
  | zero => cases h
  | succ fuel ih =>
    -- one of the two turns
    have hturn (bit : Bool) {table left : List HuffDec}
        (hentries : ∀ e ∈ table, foundCode e.encoded e.bitcount = true)
        (h : (if bc + 1 < 5 ∨ hpackHuffEndCode.getD (bc + 1 - 5) 0 < 2 * accu + bit.toNat then
            walkTable fuel (2 * accu + bit.toNat) (bc + 1) table
          else endAt (2 * accu + bit.toNat) (bc + 1) table) = some left) :
        (if bc + 1 < 5 ∨ hpackHuffEndCode.getD (bc + 1 - 5) 0 < 2 * accu + bit.toNat then
            walksEnd fuel (2 * accu + bit.toNat) (bc + 1)
          else foundCode (2 * accu + bit.toNat) (bc + 1)) = true ∧
          ∃ taken, table = taken ++ left ∧ ∀ e ∈ taken, WayTo accu bc e := by
      by_cases hmore : bc + 1 < 5 ∨ hpackHuffEndCode.getD (bc + 1 - 5) 0 < 2 * accu + bit.toNat
      · rw [if_pos hmore] at h ⊢
        obtain ⟨hends, taken, htable, hways⟩ := ih hentries h
        refine ⟨hends, taken, htable, fun e he => ?_⟩
        obtain ⟨path, hcode, hcollect⟩ := hways e he
        refine ⟨bit :: path, ?_, ?_⟩
        · rw [← hcode, ofNat_concat, List.append_assoc]
          rfl
        · unfold huffCollect
          dsimp only
          rw [if_pos hmore, hcollect]
      · rw [if_neg hmore] at h ⊢
        unfold endAt at h
        cases table with
        | nil =>
          dsimp only at h
          split_ifs at h with hfound
          obtain rfl := Option.some.inj h
          exact ⟨hfound, [], rfl, fun e he => absurd he List.not_mem_nil⟩
        | cons e table =>
          dsimp only at h
          split_ifs at h with hcode
          obtain rfl := Option.some.inj h
          obtain ⟨haccu, hbc⟩ := hcode
          refine ⟨haccu ▸ hbc ▸ hentries e List.mem_cons_self, [e], rfl, fun e' he' => ?_⟩
          obtain rfl := List.mem_singleton.mp he'
          refine ⟨[bit], ?_, ?_⟩
          · rw [haccu, hbc, ofNat_concat]
          · unfold huffCollect
            dsimp only
            rw [if_neg hmore, haccu, hbc]
    unfold walkTable at h
    dsimp only at h
    obtain ⟨mid, hfalse, htrue⟩ := Option.bind_eq_some_iff.mp h
    obtain ⟨hfirst, taken, rfl, hways⟩ := hturn false hentries hfalse
    obtain ⟨hsecond, taken', rfl, hways'⟩ := hturn true
      (fun e he => hentries e (List.mem_append_right _ he)) htrue
    refine ⟨?_, taken ++ taken', (List.append_assoc ..).symm, fun e he => ?_⟩
    · unfold walksEnd
      rw [List.all_cons, List.all_cons, List.all_nil]
      dsimp only
      rw [hfirst, hsecond]
      rfl
    · exact (List.mem_append.mp he).elim (hways e) (hways' e)

/-- The code of an entry is collected to its last bit. -/
theorem huffCollect_entry {e : HuffDec} (he : e ∈ hpackHuffDec.take 256) :
    huffCollect 0 0 (Bits.ofNat e.bitcount e.encoded) = some (e.encoded, e.bitcount, []) := by
  obtain ⟨-, taken, htable, hways⟩ := walkTable_spec (fun e he => foundCode_entry he) walkTable_start
  rw [List.append_nil] at htable
  obtain ⟨path, hcode, hcollect⟩ := hways e (htable ▸ he)
  have hpath : path = Bits.ofNat e.bitcount e.encoded := hcode
  rw [← hpath, hcollect]

theorem walksEnd_start : walksEnd 31 0 0 = true :=
  (walkTable_spec (fun _ he => foundCode_entry he) walkTable_start).1

end CivetWeb
