import CivetWeb.Lib.Scan

namespace CivetWeb

/-- A `char` read as `(unsigned char)`. -/
abbrev Byte := UInt8

def ascii (s : String) : List Byte := s.toList.map (fun c => UInt8.ofNat c.toNat)

abbrev NUL : Byte := 0
abbrev TAB : Byte := 9
abbrev LF : Byte := 10
abbrev CR : Byte := 13
abbrev SP : Byte := 32
abbrev QUOTE : Byte := 34
abbrev PLUS : Byte := 43

def MG_BUF_LEN : Nat := 1024 * 8

/-- `(int)` of an `unsigned int`. -/
def toInt32 (n : Nat) : Int := if n < 2 ^ 31 then n else n - 2 ^ 32

/-- `(int)` of a `size_t`. -/
def sizeToInt (n : Nat) : Int := toInt32 (n % 2 ^ 32)

/-- What a loop counts that is given a length as an `int`. -/
def intLength (n : Nat) : Nat := (sizeToInt n).toNat

theorem sizeToInt_of_lt {n : Nat} (h : n < 2 ^ 31) : sizeToInt n = n := by
  rw [sizeToInt, Nat.mod_eq_of_lt (by omega), toInt32, if_pos h]

theorem intLength_of_lt {n : Nat} (h : n < 2 ^ 31) : intLength n = n := by
  rw [intLength, sizeToInt_of_lt h, Int.toNat_natCast]

/-- Of a length that an `int` does not hold, less than a third is left. -/
theorem intLength_of_ge {n : Nat} (h : 2 ^ 31 ≤ n) : 3 * intLength n < n := by
  unfold intLength sizeToInt toInt32
  split_ifs <;> omega

theorem intLength_le (n : Nat) : intLength n ≤ n := by
  by_cases h : n < 2 ^ 31
  · exact (intLength_of_lt h).le
  · have := intLength_of_ge (Nat.le_of_not_lt h)
    omega

/-! The `<ctype.h>` predicates in the "C" locale. -/

def isspace (c : Byte) : Bool := c == 32 || (9 ≤ c && c ≤ 13)
def isgraph (c : Byte) : Bool := 33 ≤ c && c ≤ 126
def isprint (c : Byte) : Bool := 32 ≤ c && c ≤ 126
def iscntrl (c : Byte) : Bool := c < 32 || c == 127
def isdigit (c : Byte) : Bool := 48 ≤ c && c ≤ 57
def isxdigit (c : Byte) : Bool := isdigit c || (65 ≤ c && c ≤ 70) || (97 ≤ c && c ≤ 102)
def isalnum (c : Byte) : Bool := isdigit c || (65 ≤ c && c ≤ 90) || (97 ≤ c && c ≤ 122)
def tolower (c : Byte) : Byte := if 65 ≤ c && c ≤ 90 then c + 32 else c

/-- A fact about a single byte is checked on all of them. -/
theorem byte_all (p : Byte → Prop) [DecidablePred p] (h : ∀ n : Fin 256, p (UInt8.ofNat n.val)) :
    ∀ a, p a := by
  intro a
  have := h ⟨a.toNat, a.toNat_lt⟩
  simpa using this

/-- What holds of all bytes of a list is decided along the list. -/
instance decidableAllBytes (s : List Byte) (p : Byte → Prop) [DecidablePred p] :
    Decidable (∀ a ∈ s, p a) :=
  List.decidableBAll p s

instance decidableAllByte (c : Option Byte) (p : Byte → Prop) [DecidablePred p] :
    Decidable (∀ a ∈ c, p a) :=
  match c with
  | none => isTrue (fun _ h => by cases h)
  | some b => decidable_of_iff (p b) (by simp)

/-- `*p` for a pointer into a buffer. -/
def deref : List Byte → Byte
  | [] => NUL
  | b :: _ => b

@[simp] theorem deref_nil : deref [] = NUL := rfl
@[simp] theorem deref_cons (b : Byte) (s : List Byte) : deref (b :: s) = b := rfl

theorem deref_eq_cons {s : List Byte} {c : Byte} (h : deref s = c) (hc : c ≠ NUL) : s = c :: s.tail := by
  cases s with
  | nil => exact absurd h.symm hc
  | cons a s => rw [← h, deref_cons, List.tail_cons]

/-- The C string that starts at the head of a buffer. -/
def cstr (buf : List Byte) : List Byte := buf.takeWhile (· != NUL)

theorem cstr_noNul (buf : List Byte) : NUL ∉ cstr buf := by
  intro h
  simpa using List.mem_takeWhile_imp h

theorem prefix_cstr (buf : List Byte) : cstr buf <+: buf := List.takeWhile_prefix _

theorem cstr_of_no_nul (s : List Byte) (h : NUL ∉ s) : cstr s = s := by
  apply List.takeWhile_eq_self_iff.mpr
  intro a ha
  rw [bne_iff_ne]
  rintro rfl
  exact h ha

/-- A NUL ends the string, whatever stands behind it. -/
theorem cstr_cut (s rest : List Byte) : cstr (s ++ NUL :: rest) = cstr s := by
  induction s with
  | nil => rfl
  | cons c s ih =>
    by_cases hc : c = NUL
    · simp [cstr, hc]
    · rw [cstr, cstr, List.cons_append, List.takeWhile_cons_of_pos (by simpa using hc),
        List.takeWhile_cons_of_pos (by simpa using hc), ← cstr, ih, ← cstr]

theorem cstr_append_nul {s : List Byte} (hs : NUL ∉ s) (rest : List Byte) : cstr (s ++ NUL :: rest) = s := by
  rw [cstr_cut, cstr_of_no_nul s hs]

/-- `strncmp` on the bytes at two pointers, read up to the first NUL. -/
def strncmp : List Byte → List Byte → Nat → Int
  | _, _, 0 => 0
  | s, t, n + 1 =>
    let a := deref s
    let b := deref t
    if a ≠ b then (a.toNat : Int) - b.toNat
    else if a = NUL then 0
    else strncmp s.tail t.tail n

/-- `mg_strcasecmp` on two C strings given without their NUL. -/
def mgStrcasecmp : List Byte → List Byte → Int
  | [], [] => 0
  | [], b :: _ => - ((tolower b).toNat : Int)
  | a :: _, [] => (tolower a).toNat
  | a :: s, b :: t =>
    let diff : Int := (tolower a).toNat - (tolower b).toNat
    if diff = 0 then mgStrcasecmp s t else diff

/-- `mg_strncasecmp`; a string that ended early reads as its NUL. -/
def mgStrncasecmp : List Byte → List Byte → Nat → Int
  | _, _, 0 => 0
  | s, t, n + 1 =>
    let a := deref s
    let b := deref t
    let diff : Int := (tolower a).toNat - (tolower b).toNat
    if diff ≠ 0 then diff
    else if a = NUL then 0
    else mgStrncasecmp s.tail t.tail n

theorem tolower_toNat_inj (a b : Byte) :
    ((tolower a).toNat : Int) - (tolower b).toNat = 0 ↔ tolower a = tolower b := by
  rw [← UInt8.toNat_inj]
  omega

theorem tolower_toNat_pos (a : Byte) (ha : a ≠ NUL) : 0 < (tolower a).toNat := by
  have h : a.toNat ≠ 0 := fun h => ha (UInt8.toNat_inj.mp h)
  unfold tolower
  split_ifs with hc
  · simp only [Bool.and_eq_true, decide_eq_true_eq, UInt8.le_iff_toNat_le] at hc
    simp only [UInt8.toNat_add, UInt8.reduceToNat] at hc ⊢
    omega
  · omega

theorem mgStrcasecmp_eq_zero (s t : List Byte) (hs : NUL ∉ s) (ht : NUL ∉ t) :
    mgStrcasecmp s t = 0 ↔ s.map tolower = t.map tolower := by
  induction s generalizing t with
  | nil =>
    cases t with
    | nil => simp [mgStrcasecmp]
    | cons b t =>
      have hb := tolower_toNat_pos b (fun h => ht (by simp [h]))
      simp only [mgStrcasecmp, List.map_nil, List.map_cons, reduceCtorEq, iff_false]
      omega
  | cons a s ih =>
    cases t with
    | nil =>
      have ha := tolower_toNat_pos a (fun h => hs (by simp [h]))
      simp only [mgStrcasecmp, List.map_nil, List.map_cons, reduceCtorEq, iff_false]
      omega
    | cons b t =>
      have hs' : NUL ∉ s := fun h => hs (by simp [h])
      have ht' : NUL ∉ t := fun h => ht (by simp [h])
      simp only [mgStrcasecmp, List.map_cons, List.cons.injEq, tolower_toNat_inj]
      split_ifs with h
      · simpa [h] using ih t hs' ht'
      · simp [h, tolower_toNat_inj]

theorem mgStrncasecmp_eq_zero (s t : List Byte) (hs : NUL ∉ s) :
    mgStrncasecmp s t s.length = 0 ↔ s.map tolower <+: t.map tolower := by
  induction s generalizing t with
  | nil => simp [mgStrncasecmp]
  | cons a s ih =>
    have ha : a ≠ NUL := fun h => hs (by simp [h])
    have hs' : NUL ∉ s := fun h => hs (by simp [h])
    have hpos := tolower_toNat_pos a ha
    simp only [List.length_cons, mgStrncasecmp, deref_cons, List.tail_cons, ne_eq,
      tolower_toNat_inj, ha, if_false]
    cases t with
    | nil =>
      have hne : ¬ tolower a = tolower (deref []) := by
        intro h
        rw [h] at hpos
        exact absurd hpos (by decide)
      simp only [hne, not_false_eq_true, if_true, List.map_cons, List.map_nil,
        List.prefix_nil, reduceCtorEq, tolower_toNat_inj]
    | cons b t =>
      by_cases hab : tolower a = tolower b
      · simp only [deref_cons, hab, not_true_eq_false, if_false, List.tail_cons, List.map_cons,
          List.cons_prefix_cons, true_and]
        exact ih t hs'
      · simp only [deref_cons, hab, not_false_eq_true, if_true, List.map_cons,
          List.cons_prefix_cons, false_and, tolower_toNat_inj]

end CivetWeb
