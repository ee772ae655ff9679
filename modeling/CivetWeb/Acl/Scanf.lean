import CivetWeb.Format

namespace CivetWeb

/-! `sscanf` of the C library, with the directives that are used here. -/

inductive ScanDirective where
  /-- A character that is not `%`. -/
  | lit (c : Byte)
  /-- `%u` -/
  | unsigned
  /-- `%width[^stop]` -/
  | notIn (width : Nat) (stop : Byte)
  /-- `%n` -/
  | consumed
  deriving DecidableEq, Repr

/-- The values that were stored; how many is what `sscanf` returns, -1 for none at the end of the
string apart. `n` is set where a `%n` was reached. -/
structure Scanned where
  nums : List Nat
  texts : List (List Byte)
  n : Option Nat
  deriving DecidableEq, Repr

/-- `%u`: `strtoul`, cut to an `unsigned int`. -/
def scanUnsigned (s : List Byte) : Option (Nat × List Byte) :=
  let p := s.dropWhile isspace
  let p := if deref p = 45 ∨ deref p = 43 then p.tail else p
  if (strtoDigits 10 p).isNone then none
  else some ((strtoul 10 s).1 % 2 ^ 32, (strtoul 10 s).2)

/-- `sscanf` from the byte `pos` on, where the rest of the string is `s`. -/
def sscanf : List ScanDirective → List Byte → Nat → Scanned
  | [], _, _ => ⟨[], [], none⟩
  | .lit _ :: _, [], _ => ⟨[], [], none⟩
  | .lit c :: fmt, d :: s, pos => if d = c then sscanf fmt s (pos + 1) else ⟨[], [], none⟩
  | .unsigned :: fmt, s, pos =>
    match scanUnsigned s with
    | some (v, rest) =>
      let r := sscanf fmt rest (pos + (s.length - rest.length))
      { r with nums := v :: r.nums }
    | none => ⟨[], [], none⟩
  | .notIn width stop :: fmt, s, pos =>
    let text := (s.take width).takeWhile (· != stop)
    if text = [] then ⟨[], [], none⟩
    else
      let r := sscanf fmt (s.drop text.length) (pos + text.length)
      { r with texts := text :: r.texts }
  | .consumed :: fmt, s, pos => { sscanf fmt s pos with n := some pos }

/-- A decimal number is read up to what follows. -/
theorem scanUnsigned_decText (v : Nat) (rest : List Byte) (hv : v < 2 ^ 32)
    (hrest : ∀ c ∈ rest.head?, isDigitIn 10 c = false ∧ c ≠ 120 ∧ c ≠ 88) :
    scanUnsigned (decText v ++ rest) = some (v, rest) := by
  have hdigits := decText_digits v
  have hread := strtol_text 10 (decText v) rest hdigits (decText_ne_nil v) (decText_plain v) hrest
  have hdig := strtoDigits_text 10 (decText v) rest hdigits (decText_ne_nil v) (decText_plain v) hrest
  have hskip : (decText v ++ rest).dropWhile isspace = decText v ++ rest ∧
      ¬ (deref (decText v ++ rest) = 45 ∨ deref (decText v ++ rest) = 43) := by
    obtain ⟨d, ds, hd⟩ := List.exists_cons_of_ne_nil (decText_ne_nil v)
    obtain ⟨hsp, hminus, hplus⟩ := digit_noSign 10 d (hdigits d (by simp [hd]))
    rw [hd]
    exact ⟨by simp [hsp], by simp [hminus, hplus]⟩
  have hval : (strtoul 10 (decText v ++ rest)) = (v, rest) := by
    rw [strtoul, hread, decText_value]
    have hsmall : ¬ ULONG_MAX < v := by
      unfold ULONG_MAX
      omega
    simp [hsmall]
  rw [scanUnsigned, hskip.1]
  rw [if_neg hskip.2, hdig, hval, if_neg (by simp), Nat.mod_eq_of_lt hv]

/-- `%u` takes blanks, a sign and digits. -/
def unsignedChar (c : Byte) : Bool := isspace c || c == 45 || c == 43 || isDigitIn 10 c

theorem scanUnsigned_taken (s : List Byte) (v : Nat) (rest : List Byte)
    (h : scanUnsigned s = some (v, rest)) :
    ∃ taken, s = taken ++ rest ∧ ∀ c ∈ taken, unsignedChar c = true := by
  obtain ⟨p, hp⟩ : ∃ p, p = s.dropWhile isspace := ⟨_, rfl⟩
  have hspace : s = s.takeWhile isspace ++ p := by rw [hp, List.takeWhile_append_dropWhile]
  obtain ⟨sign, q, hsign, hq, hq'⟩ : ∃ sign q, p = sign ++ q ∧ (∀ c ∈ sign, c = 45 ∨ c = 43) ∧
      q = if deref p = 45 ∨ deref p = 43 then p.tail else p := by
    by_cases hs : deref p = 45 ∨ deref p = 43
    · cases hpc : p with
      | nil =>
        rw [hpc] at hs
        exact absurd hs (by decide)
      | cons d p' =>
        rw [hpc] at hs
        exact ⟨[d], p', rfl, by simpa using hs, by rw [if_pos hs]; rfl⟩
    · exact ⟨[], p, rfl, by simp, by rw [if_neg hs]⟩
  rw [scanUnsigned, ← hp] at h
  rw [← hq'] at h
  cases hd : strtoDigits 10 q with
  | none => simp [hd] at h
  | some x =>
    obtain ⟨m, rest'⟩ := x
    have hrest : rest = rest' := by
      rw [hd] at h
      simp only [Option.isNone_some, Bool.false_eq_true, if_false, Option.some.injEq,
        Prod.mk.injEq] at h
      rw [← h.2, strtoul, strtol, ← hp]
      dsimp only
      rw [← hq', hd]
    have hdigits : q = q.takeWhile (isDigitIn 10) ++ rest' := by
      rw [strtoDigits] at hd
      simp only [Nat.reduceEqDiff, false_and, if_false] at hd
      split_ifs at hd
      rw [← (Prod.mk.inj (Option.some.inj hd)).2, List.takeWhile_append_dropWhile]
    refine ⟨s.takeWhile isspace ++ (sign ++ q.takeWhile (isDigitIn 10)), ?_, ?_⟩
    · rw [List.append_assoc, List.append_assoc, hrest, ← hdigits, ← hsign]
      exact hspace
    · intro c hc
      unfold unsignedChar
      rcases List.mem_append.mp hc with hc | hc
      · simp [Scan.takeWhile_all isspace s c hc]
      · rcases List.mem_append.mp hc with hc | hc
        · rcases hq c hc with rfl | rfl <;> decide
        · simp [Scan.takeWhile_all (isDigitIn 10) q c hc]

/-- Numbers and characters that are not `stop` are not read past it. -/
theorem sscanf_stop (stop : Byte) (hstop : unsignedChar stop = false) (fmt : List ScanDirective)
    (hfmt : ∀ d ∈ fmt, d = .unsigned ∨ d = .consumed ∨ ∃ c, d = .lit c ∧ c ≠ stop)
    (s : List Byte) (pos k : Nat) (h : (sscanf fmt s pos).n = some k) :
    k ≤ pos + (s.takeWhile (· != stop)).length := by
  induction fmt generalizing s pos with
  | nil => simp [sscanf] at h
  | cons d fmt ih =>
    have hrest : ∀ d ∈ fmt, d = .unsigned ∨ d = .consumed ∨ ∃ c, d = .lit c ∧ c ≠ stop :=
      fun d hd => hfmt d (List.mem_cons_of_mem _ hd)
    rcases hfmt d (by simp) with rfl | rfl | ⟨c, rfl, hc⟩
    · rw [sscanf] at h
      cases hu : scanUnsigned s with
      | none => simp [hu] at h
      | some x =>
        obtain ⟨v, rest⟩ := x
        obtain ⟨taken, rfl, htaken⟩ := scanUnsigned_taken s v rest hu
        rw [hu] at h
        have hle := ih hrest rest _ h
        have hall : ∀ a ∈ taken, (a != stop) = true := by
          intro a ha
          rw [bne_iff_ne]
          rintro rfl
          rw [htaken a ha] at hstop
          cases hstop
        rw [List.takeWhile_append_of_pos hall]
        simp only [List.length_append] at hle ⊢
        omega
    · rw [sscanf] at h
      simp only [Option.some.injEq] at h
      omega
    · cases s with
      | nil => simp [sscanf] at h
      | cons a s =>
        rw [sscanf] at h
        split_ifs at h with ha
        have hle := ih hrest s (pos + 1) h
        rw [List.takeWhile_cons_of_pos (by rw [ha]; simpa using hc), List.length_cons]
        omega

end CivetWeb
