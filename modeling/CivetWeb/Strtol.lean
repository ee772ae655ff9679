import CivetWeb.Bytes
import CivetWeb.Lib.Numeral

namespace CivetWeb

/-! `strtoul` and `strtoll` of the C library. -/

def isalpha (c : Byte) : Bool := (65 ≤ c && c ≤ 90) || (97 ≤ c && c ≤ 122)

/-- The value of a digit or letter as a digit. -/
def digitValue (c : Byte) : Nat :=
  if isdigit c then c.toNat - 48 else (tolower c).toNat - 87

def isDigitIn (base : Nat) (c : Byte) : Bool :=
  (isdigit c || isalpha c) && digitValue c < base

/-- A number as it was converted: its sign, its digits' value, and `*endptr`. -/
structure Strtol where
  neg : Bool
  magnitude : Nat
  rest : List Byte
  deriving DecidableEq, Repr

/-- The part of a conversion behind the sign; `none` where there are no digits. -/
def strtoDigits (base : Nat) (p : List Byte) : Option (Nat × List Byte) :=
  let p :=
    if base = 16 ∧ deref p = 48 ∧ (deref p.tail = 120 ∨ deref p.tail = 88) ∧
      isxdigit (deref p.tail.tail) = true then p.tail.tail else p
  let digits := p.takeWhile (isDigitIn base)
  if digits = [] then none
  else some (Numeral.value base digitValue digits, p.dropWhile (isDigitIn base))

def strtol (base : Nat) (nptr : List Byte) : Strtol :=
  let p := nptr.dropWhile isspace
  let neg := deref p == 45
  let p := if deref p = 45 ∨ deref p = 43 then p.tail else p
  match strtoDigits base p with
  | none => ⟨false, 0, nptr⟩
  | some (magnitude, rest) => ⟨neg, magnitude, rest⟩

def ULONG_MAX : Nat := 2 ^ 64 - 1

/-- `strtoul`: the value and `*endptr`. -/
def strtoul (base : Nat) (nptr : List Byte) : Nat × List Byte :=
  let r := strtol base nptr
  (if ULONG_MAX < r.magnitude then ULONG_MAX
    else if r.neg then (2 ^ 64 - r.magnitude) % 2 ^ 64 else r.magnitude, r.rest)

/-- `strtoll`: the value and `*endptr`. -/
def strtoll (base : Nat) (nptr : List Byte) : Int × List Byte :=
  let r := strtol base nptr
  (if r.neg then max (-(2 ^ 63)) (-r.magnitude) else min (2 ^ 63 - 1) r.magnitude, r.rest)

def atoi (s : List Byte) : Int := toInt32 ((strtoll 10 (s ++ [NUL])).1 % 2 ^ 32).toNat

theorem isxdigit_isDigitIn : ∀ a, isxdigit a = true ↔ isDigitIn 16 a = true :=
  byte_all _ (by decide +kernel)

theorem isdigit_isDigitIn : ∀ a, isdigit a = true ↔ isDigitIn 10 a = true :=
  byte_all _ (by decide +kernel)

theorem digit_noSign (base : Nat) (a : Byte) (ha : isDigitIn base a = true) :
    isspace a = false ∧ a ≠ 45 ∧ a ≠ 43 := by
  have hbyte : ∀ a, (isdigit a || isalpha a) = true → isspace a = false ∧ a ≠ 45 ∧ a ≠ 43 :=
    byte_all _ (by decide +kernel)
  simp only [isDigitIn, Bool.and_eq_true] at ha
  exact hbyte a ha.1

section
variable (base : Nat) (digits rest : List Byte)
variable (hdigits : ∀ a ∈ digits, isDigitIn base a = true) (hne : digits ≠ [])
variable (hplain : ∀ a ∈ digits, a ≠ 120 ∧ a ≠ 88)
variable (hrest : ∀ c ∈ rest.head?, isDigitIn base c = false ∧ c ≠ 120 ∧ c ≠ 88)
include hdigits hne hplain hrest

theorem strtoDigits_text : strtoDigits base (digits ++ rest) =
    some (Numeral.value base digitValue digits, rest) := by
  obtain ⟨d, ds, rfl⟩ := List.exists_cons_of_ne_nil hne
  have hhex : deref (ds ++ rest) ≠ 120 ∧ deref (ds ++ rest) ≠ 88 := by
    cases ds with
    | nil =>
      cases rest with
      | nil => decide
      | cons c rest => exact (hrest c (by simp)).2
    | cons e es => exact hplain e (by simp)
  have htake : ((d :: ds) ++ rest).takeWhile (isDigitIn base) = d :: ds := by
    cases rest with
    | nil => simpa using List.takeWhile_eq_self_iff.mpr hdigits
    | cons c rest => exact Scan.takeWhile_stop _ (d :: ds) c rest hdigits (hrest c (by simp)).1
  have hdrop : ((d :: ds) ++ rest).dropWhile (isDigitIn base) = rest := by
    cases rest with
    | nil => simpa using List.dropWhile_eq_nil_iff.mpr hdigits
    | cons c rest => exact Scan.dropWhile_stop _ (d :: ds) c rest hdigits (hrest c (by simp)).1
  rw [List.cons_append] at htake hdrop
  simp [strtoDigits, hhex.1, hhex.2, htake, hdrop]

/-- Digits are read up to the first byte that is none. -/
theorem strtol_text : strtol base (digits ++ rest) =
    ⟨false, Numeral.value base digitValue digits, rest⟩ := by
  have hread := strtoDigits_text base digits rest hdigits hne hplain hrest
  obtain ⟨d, ds, rfl⟩ := List.exists_cons_of_ne_nil hne
  obtain ⟨hsp, hminus, hplus⟩ := digit_noSign base d (hdigits d (by simp))
  have hskip : ((d :: ds) ++ rest).dropWhile isspace = (d :: ds) ++ rest := by
    simp [hsp]
  have hsign : deref ((d :: ds) ++ rest) = d := rfl
  rw [strtol, hskip, hsign]
  simp only [hminus, hplus, or_self, if_false, hread]
  simp [hminus]

end

section
variable (base : Nat) (digits : List Byte) (c : Byte) (rest : List Byte)
variable (hdigits : ∀ a ∈ digits, isDigitIn base a = true) (hne : digits ≠ [])
variable (hc : isDigitIn base c = false) (hx : c ≠ 120 ∧ c ≠ 88)
variable (hplain : ∀ a ∈ digits, a ≠ 120 ∧ a ≠ 88)
include hdigits hne hc hx hplain

theorem strtol_digits : strtol base (digits ++ c :: rest) =
    ⟨false, Numeral.value base digitValue digits, c :: rest⟩ :=
  strtol_text base digits (c :: rest) hdigits hne hplain (by simpa using ⟨hc, hx⟩)

theorem strtol_minus : strtol base (45 :: (digits ++ c :: rest)) =
    ⟨true, Numeral.value base digitValue digits, c :: rest⟩ := by
  have hread := strtoDigits_text base digits (c :: rest) hdigits hne hplain (by simpa using ⟨hc, hx⟩)
  have hspace : isspace 45 = false := rfl
  simp [strtol, hspace, hread]

end

end CivetWeb
