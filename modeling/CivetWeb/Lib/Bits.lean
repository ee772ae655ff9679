import Mathlib.Data.List.Basic

/-! Octets as bits, the highest bit of an octet first. -/

namespace Bits

/-- The low `width` bits of a number. -/
def ofNat (width n : Nat) : List Bool := (List.range width).map (fun i => n.testBit (width - 1 - i))

def toNat (bits : List Bool) : Nat := bits.foldl (fun n b => 2 * n + b.toNat) 0

def ofOctets (s : List UInt8) : List Bool := s.flatMap (fun b => ofNat 8 b.toNat)

/-- The octets of a string of bits behind the bits `open`, which do not fill an octet; the last octet is
filled with ones. -/
def packBehind : List Bool → List Bool → List UInt8
  | [], [] => []
  | start, [] => [UInt8.ofNat (toNat (start ++ List.replicate (8 - start.length) true))]
  | start, b :: bits =>
    if start.length = 7 then UInt8.ofNat (toNat (start ++ [b])) :: packBehind [] bits
    else packBehind (start ++ [b]) bits

def pack (bits : List Bool) : List UInt8 := packBehind [] bits

@[simp] theorem ofNat_length (width n : Nat) : (ofNat width n).length = width := by
  simp [ofNat]

@[simp] theorem ofOctets_nil : ofOctets [] = [] := rfl

@[simp] theorem ofOctets_cons (b : UInt8) (s : List UInt8) :
    ofOctets (b :: s) = ofNat 8 b.toNat ++ ofOctets s := rfl

theorem ofOctets_length (s : List UInt8) : (ofOctets s).length = 8 * s.length := by
  induction s with
  | nil => rfl
  | cons b s ih =>
    rw [ofOctets_cons, List.length_append, ih, ofNat_length, List.length_cons]
    omega

/-- An octet has the bits that it was made of. -/
theorem ofNat_octet (bits : List Bool) (h : bits.length = 8) :
    ofNat 8 (UInt8.ofNat (toNat bits)).toNat = bits := by
  have hall : ∀ a b c d e f g h : Bool,
      ofNat 8 (UInt8.ofNat (toNat [a, b, c, d, e, f, g, h])).toNat = [a, b, c, d, e, f, g, h] := by
    decide +kernel
  match bits, h with
  | [a, b, c, d, e, f, g, h], _ => exact hall a b c d e f g h

theorem ofOctets_packBehind (start bits : List Bool) (h : start.length < 8) :
    ∃ k < 8, ofOctets (packBehind start bits) = start ++ bits ++ List.replicate k true := by
  induction bits generalizing start with
  | nil =>
    cases start with
    | nil => exact ⟨0, by omega, rfl⟩
    | cons a start =>
      rw [List.length_cons] at h
      refine ⟨8 - (a :: start).length, by rw [List.length_cons]; omega, ?_⟩
      rw [packBehind, ofOctets_cons, ofNat_octet, List.append_nil, ofOctets_nil, List.append_nil]
      · rw [List.length_append, List.length_replicate, List.length_cons]
        omega
      · exact List.cons_ne_nil a start
  | cons b bits ih =>
    have hstep : packBehind start (b :: bits) =
        if start.length = 7 then UInt8.ofNat (toNat (start ++ [b])) :: packBehind [] bits
        else packBehind (start ++ [b]) bits := by
      cases start <;> rfl
    rw [hstep]
    split_ifs with hfull
    · obtain ⟨k, hk, hrest⟩ := ih [] (by simp)
      refine ⟨k, hk, ?_⟩
      rw [ofOctets_cons, hrest, ofNat_octet]
      · simp
      · rw [List.length_append, hfull, List.length_singleton]
    · obtain ⟨k, hk, hrest⟩ := ih (start ++ [b])
        (by rw [List.length_append, List.length_singleton]; omega)
      refine ⟨k, hk, ?_⟩
      rw [hrest]
      simp

/-- Packed bits come back with less than an octet of ones behind them. -/
theorem ofOctets_pack (bits : List Bool) :
    ∃ k < 8, ofOctets (pack bits) = bits ++ List.replicate k true :=
  ofOctets_packBehind [] bits (by simp)

end Bits
