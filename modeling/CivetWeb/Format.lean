import CivetWeb.Strtol
import Mathlib.Data.Nat.Digits.Lemmas

namespace CivetWeb

/-! `printf` and the string buffers of the C library. -/

/-- A digit of `%u`. -/
def decChar (d : Nat) : Byte := UInt8.ofNat (48 + d)

/-- `%u` and the like of `sprintf`. -/
def decText (n : Nat) : List Byte :=
  if n = 0 then [48] else (Nat.digits 10 n).reverse.map decChar

/-- `%ld` of `sprintf`. -/
def intText (n : Int) : List Byte := if n < 0 then 45 :: decText n.natAbs else decText n.natAbs

/-- `mg_snprintf` of a text: what the buffer holds, and whether it is truncated. -/
def mgSnprintf (buflen : Nat) (text : List Byte) : List Byte × Bool :=
  if text.length < buflen then (text, false) else (text.take (buflen - 1), true)

/-- `mg_strlcpy` into a buffer of `n` bytes. -/
def mgStrlcpy (src : List Byte) (n : Nat) : List Byte := src.take (n - 1)

def UTF8_PATH_MAX : Nat := 4096

theorem mgSnprintf_fits (buflen : Nat) (text : List Byte) (h : text.length < buflen) :
    mgSnprintf buflen text = (text, false) := if_pos h

theorem decChar_digit (d : Nat) (h : d < 10) :
    isDigitIn 10 (decChar d) = true ∧ digitValue (decChar d) = d := by
  have hall : ∀ d ∈ List.range 10, isDigitIn 10 (decChar d) = true ∧ digitValue (decChar d) = d := by
    decide
  exact hall d (List.mem_range.mpr h)

theorem decText_value (n : Nat) : Numeral.value 10 digitValue (decText n) = n := by
  unfold decText
  split_ifs with h
  · rw [h]
    decide
  · exact Numeral.value_digits 10 digitValue decChar n (by decide)
      (fun d hd => (decChar_digit d hd).2)

theorem decText_ne_nil (n : Nat) : decText n ≠ [] := by
  unfold decText
  split_ifs with h
  · simp
  · intro hnil
    rw [List.map_eq_nil_iff, List.reverse_eq_nil_iff] at hnil
    exact h (Nat.digits_eq_nil_iff_eq_zero.mp hnil)

theorem decText_digits (n : Nat) : ∀ a ∈ decText n, isDigitIn 10 a = true := by
  intro a ha
  unfold decText at ha
  split_ifs at ha with h
  · rw [List.mem_singleton.mp ha]
    decide
  · obtain ⟨d, hd, rfl⟩ := List.mem_map.mp ha
    exact (decChar_digit d (Nat.digits_lt_base (by decide) (List.mem_reverse.mp hd))).1

/-- A number of up to `k` digits is printed as such. -/
theorem decText_length_le (n k : Nat) (hk : 0 < k) (h : n < 10 ^ k) : (decText n).length ≤ k := by
  unfold decText
  split_ifs with hz
  · exact hk
  · rw [List.length_map, List.length_reverse]
    exact (Nat.digits_length_le_iff (by decide) n).mpr h

theorem decText_three (n : Nat) (h : 100 ≤ n ∧ n ≤ 999) :
    decText n = [decChar (n / 100), decChar (n / 10 % 10), decChar (n % 10)] := by
  have hdigits : Nat.digits 10 n = [n % 10, n / 10 % 10, n / 100] := by
    rw [Nat.digits_def' (by decide) (by omega), Nat.digits_def' (by decide) (by omega),
      Nat.digits_of_lt 10 (n / 10 / 10) (by omega) (by omega), Nat.div_div_eq_div_mul]
  rw [decText, if_neg (by omega), hdigits]
  rfl

theorem decText_inj (m n : Nat) (h : decText m = decText n) : m = n := by
  rw [← decText_value m, h, decText_value]

theorem decText_plain (n : Nat) : ∀ a ∈ decText n, a ≠ 120 ∧ a ≠ 88 := by
  have hdigit : ∀ a, isDigitIn 10 a = true → a ≠ 120 ∧ a ≠ 88 := byte_all _ (by decide +kernel)
  intro a ha
  exact hdigit a (decText_digits n a ha)

theorem intText_ne_nil (n : Int) : intText n ≠ [] := by
  unfold intText
  split_ifs
  · simp
  · exact decText_ne_nil _

theorem intText_inj (m n : Int) (h : intText m = intText n) : m = n := by
  have hminus (k : Nat) (t : List Byte) : decText k ≠ 45 :: t := by
    intro hk
    have hdigit := decText_digits k 45 (by rw [hk]; exact List.mem_cons_self)
    exact absurd hdigit (by decide)
  unfold intText at h
  split_ifs at h with hm hn hn
  · have := decText_inj _ _ (List.cons.inj h).2
    omega
  · exact absurd h.symm (hminus _ _)
  · exact absurd h (hminus _ _)
  · have := decText_inj _ _ h
    omega

/-- `%ld` writes a number of up to 63 bits in 20 characters at most. -/
theorem intText_length_le (n : Int) (hlow : -2 ^ 63 ≤ n) (hhigh : n < 2 ^ 63) : (intText n).length ≤ 20 := by
  have hdigits := decText_length_le n.natAbs 19 (by decide) (by omega)
  unfold intText
  split_ifs
  · rw [List.length_cons]
    omega
  · omega

/-- A printed number is read back, up to the first byte that is no digit. -/
theorem strtoll_intText (n : Int) (c : Byte) (rest : List Byte) (hlow : -2 ^ 63 ≤ n) (hhigh : n < 2 ^ 63)
    (hc : isDigitIn 10 c = false) (hx : c ≠ 120 ∧ c ≠ 88) :
    strtoll 10 (intText n ++ c :: rest) = (n, c :: rest) := by
  have hdigits := decText_digits n.natAbs
  have hne := decText_ne_nil n.natAbs
  have hplain := decText_plain n.natAbs
  unfold intText
  split_ifs with hneg
  · unfold strtoll
    rw [List.cons_append, strtol_minus 10 _ c rest hdigits hne hc hx hplain, decText_value]
    simp only [if_true, Prod.mk.injEq, and_true]
    omega
  · unfold strtoll
    rw [strtol_digits 10 _ c rest hdigits hne hc hx hplain, decText_value]
    simp only [Bool.false_eq_true, if_false, Prod.mk.injEq, and_true]
    omega

end CivetWeb
