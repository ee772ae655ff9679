import CivetWeb.Bytes

namespace CivetWeb

abbrev PERCENT : Byte := 37

/-- `HEXTOI` of a lower case hexadecimal digit. -/
def hexToI (x : Byte) : Byte := if isdigit x then x - 48 else x - 87

def hexByte (a b : Byte) : Byte := (hexToI (tolower a) <<< 4) ||| hexToI (tolower b)

/-- One byte of the source as it is copied; `none` is an invalid character. -/
def decodeByte (isForm : Bool) (c : Byte) : Option Byte :=
  if isForm && c == PLUS then some SP
  else if c ≤ SP then none
  else some c

/-- The loop of `mg_url_decode` with `room` for the result; `none` is its -1. -/
def urlDecodeLoop (isForm : Bool) : Nat → List Byte → Option (List Byte)
  | _, [] => some []
  | 0, _ :: _ => none
  | room + 1, c :: src =>
    match src with
    | a :: b :: rest =>
      if c = PERCENT ∧ isxdigit a ∧ isxdigit b then
        (urlDecodeLoop isForm room rest).map (hexByte a b :: ·)
      else (decodeByte isForm c).bind (fun d => (urlDecodeLoop isForm room src).map (d :: ·))
    | _ => (decodeByte isForm c).bind (fun d => (urlDecodeLoop isForm room src).map (d :: ·))

/-- `mg_url_decode` of the bytes `src` into a buffer of `dstLen` bytes. -/
def mgUrlDecode (src : List Byte) (dstLen : Nat) (isForm : Bool) : Option (List Byte) :=
  urlDecodeLoop isForm (dstLen - 1) src

/-- How many bytes `mg_url_decode` has room for: `dst_len - 1`, which wraps around below the least `int`. -/
def urlDecodeRoom (dstLen : Int) : Nat := (toInt32 ((dstLen - 1) % 2 ^ 32).toNat).toNat

/-- `mg_url_decode` of the bytes at `src`, with its lengths as the `int`s that they are. -/
def mgUrlDecodeInt (src : List Byte) (srcLen dstLen : Int) (isForm : Bool) : Option (List Byte) :=
  urlDecodeLoop isForm (urlDecodeRoom dstLen) (src.take srcLen.toNat)

theorem urlDecodeRoom_natCast {n : Nat} (h : n ≤ 2 ^ 31) : urlDecodeRoom n = n - 1 := by
  unfold urlDecodeRoom toInt32
  split_ifs <;> omega

theorem urlDecodeRoom_whole (n : Nat) : urlDecodeRoom (sizeToInt n + 1) = intLength n := by
  unfold urlDecodeRoom intLength sizeToInt toInt32
  split_ifs <;> omega

/-- A text is decoded to a buffer of its own length in front of what an `int` does not count of it. -/
theorem mgUrlDecodeInt_whole (src : List Byte) (n : Nat) (isForm : Bool) :
    mgUrlDecodeInt src (sizeToInt n) (sizeToInt n + 1) isForm =
      mgUrlDecode (src.take (intLength n)) (intLength n + 1) isForm := by
  rw [mgUrlDecodeInt, urlDecodeRoom_whole]
  rfl

@[simp] theorem mgUrlDecode_nil (dstLen : Nat) (isForm : Bool) :
    mgUrlDecode [] dstLen isForm = some [] := by
  unfold mgUrlDecode
  cases dstLen - 1 <;> rfl

/-- A byte that stands for itself in a form. -/
def literalByte (c : Byte) : Bool := SP < c && c != PERCENT && c != PLUS

theorem urlDecodeLoop_copy (isForm : Bool) (room : Nat) (c : Byte) (src : List Byte)
    (hc : ¬ (c = PERCENT ∧ ∃ a b rest, src = a :: b :: rest ∧ isxdigit a ∧ isxdigit b)) :
    urlDecodeLoop isForm (room + 1) (c :: src) =
      (decodeByte isForm c).bind (fun d => (urlDecodeLoop isForm room src).map (d :: ·)) := by
  match src with
  | [] => rfl
  | [_] => rfl
  | a :: b :: rest =>
    refine if_neg ?_
    rintro ⟨hp, ha, hb⟩
    exact hc ⟨hp, a, b, rest, rfl, ha, hb⟩

theorem decodeByte_literal (isForm : Bool) :
    ∀ c, literalByte c = true → decodeByte isForm c = some c := by
  cases isForm
  · exact byte_all _ (by decide +kernel)
  · exact byte_all _ (by decide +kernel)

theorem urlDecodeLoop_literal (isForm : Bool) (room : Nat) (src : List Byte)
    (hsrc : ∀ c ∈ src, literalByte c = true) (hroom : src.length ≤ room) :
    urlDecodeLoop isForm room src = some src := by
  induction src generalizing room with
  | nil => cases room <;> rfl
  | cons c src ih =>
    obtain ⟨room, rfl⟩ : ∃ k, room = k + 1 := ⟨room - 1, by simp at hroom; omega⟩
    have hc := hsrc c (by simp)
    have hne : c ≠ PERCENT := by
      rintro rfl
      exact absurd hc (by decide)
    rw [urlDecodeLoop_copy isForm room c src (fun h => hne h.1), decodeByte_literal isForm c hc,
      Option.bind_some, ih room (fun a ha => hsrc a (by simp [ha])) (by simpa using hroom)]
    rfl

/-- Text without escapes decodes to itself where it fits. -/
theorem mgUrlDecode_literal (src : List Byte) (dstLen : Nat) (isForm : Bool)
    (hsrc : ∀ c ∈ src, literalByte c = true) (hlen : src.length < dstLen) :
    mgUrlDecode src dstLen isForm = some src :=
  urlDecodeLoop_literal isForm (dstLen - 1) src hsrc (by omega)

/-- What a form value may hold: no byte up to the space. -/
theorem decodeByte_isSome : ∀ c, (decodeByte true c).isSome = true ↔ SP < c :=
  byte_all _ (by decide +kernel)

theorem isxdigit_above : ∀ c, isxdigit c = true → SP < c :=
  byte_all _ (by decide +kernel)

/-- A value is decoded exactly where all its bytes lie above the space. -/
theorem urlDecodeLoop_isSome (room : Nat) (src : List Byte) (hroom : src.length ≤ room) :
    (urlDecodeLoop true room src).isSome = true ↔ ∀ c ∈ src, SP < c := by
  induction room generalizing src with
  | zero =>
    obtain rfl := List.eq_nil_of_length_eq_zero (by omega : src.length = 0)
    simp [urlDecodeLoop]
  | succ room ih =>
    cases src with
    | nil => simp [urlDecodeLoop]
    | cons c src =>
      have hlen : src.length ≤ room := by simpa using hroom
      by_cases hesc : c = PERCENT ∧ ∃ a b rest, src = a :: b :: rest ∧ isxdigit a ∧ isxdigit b
      · obtain ⟨rfl, a, b, rest, rfl, ha, hb⟩ := hesc
        have hrest := ih rest (by simp at hlen; omega)
        have hp : SP < PERCENT := by decide
        rw [urlDecodeLoop, if_pos ⟨rfl, ha, hb⟩, Option.isSome_map, hrest]
        simp [hp, isxdigit_above a ha, isxdigit_above b hb]
      · rw [urlDecodeLoop_copy true room c src hesc]
        have hdec := decodeByte_isSome c
        cases hd : decodeByte true c with
        | none =>
          rw [hd] at hdec
          have hnot : ¬ SP < c := fun h => by simpa using hdec.mpr h
          simp [hnot]
        | some d =>
          rw [hd] at hdec
          have habove : SP < c := hdec.mp rfl
          simp only [Option.bind_some, Option.isSome_map, ih src hlen, List.forall_mem_cons, habove,
            true_and]

theorem decodeByte_ne_nul (c : Byte) : decodeByte true c ≠ some NUL := by
  unfold decodeByte
  split_ifs with hplus hle
  · decide
  · exact nofun
  · intro h
    rw [Option.some.inj h] at hle
    exact hle (by decide)

theorem urlDecodeLoop_le_room (isForm : Bool) (room : Nat) (s d : List Byte)
    (h : urlDecodeLoop isForm room s = some d) : d.length ≤ room := by
  fun_induction urlDecodeLoop isForm room s generalizing d with
  | case1 room =>
    rw [← Option.some.inj h]
    exact Nat.zero_le room
  | case2 c src => exact absurd h nofun
  | case3 room c a b rest _ ih =>
    obtain ⟨e, he, rfl⟩ := Option.map_eq_some_iff.mp h
    exact Nat.succ_le_succ (ih e he)
  | case4 room c a b rest _ ih =>
    obtain ⟨x, -, h⟩ := Option.bind_eq_some_iff.mp h
    obtain ⟨e, he, rfl⟩ := Option.map_eq_some_iff.mp h
    exact Nat.succ_le_succ (ih e he)
  | case5 room c src _ ih =>
    obtain ⟨x, -, h⟩ := Option.bind_eq_some_iff.mp h
    obtain ⟨e, he, rfl⟩ := Option.map_eq_some_iff.mp h
    exact Nat.succ_le_succ (ih e he)

/-- An escape is three bytes for one, and only an escape decodes to a NUL. -/
theorem urlDecodeLoop_lengths (room : Nat) (s d : List Byte) (h : urlDecodeLoop true room s = some d) :
    d.length ≤ s.length ∧ s.length ≤ 3 * d.length ∧ (d.length = s.length → NUL ∉ d) := by
  induction room generalizing s d with
  | zero =>
    cases s with
    | nil =>
      obtain rfl := Option.some.inj h
      exact ⟨Nat.le_refl 0, Nat.le_refl 0, fun _ => List.not_mem_nil⟩
    | cons c src => exact absurd h nofun
  | succ room ih =>
    cases s with
    | nil =>
      obtain rfl := Option.some.inj h
      exact ⟨Nat.le_refl 0, Nat.le_refl 0, fun _ => List.not_mem_nil⟩
    | cons c src =>
      by_cases hesc : c = PERCENT ∧ ∃ a b rest, src = a :: b :: rest ∧ isxdigit a ∧ isxdigit b
      · obtain ⟨rfl, a, b, rest, rfl, ha, hb⟩ := hesc
        rw [urlDecodeLoop, if_pos ⟨rfl, ha, hb⟩] at h
        obtain ⟨e, he, rfl⟩ := Option.map_eq_some_iff.mp h
        obtain ⟨hle, hge, -⟩ := ih rest e he
        simp only [List.length_cons]
        exact ⟨by omega, by omega, fun heq => by omega⟩
      · rw [urlDecodeLoop_copy true room c src hesc] at h
        obtain ⟨x, hx, h⟩ := Option.bind_eq_some_iff.mp h
        obtain ⟨e, he, rfl⟩ := Option.map_eq_some_iff.mp h
        obtain ⟨hle, hge, hnul⟩ := ih src e he
        have hne : NUL ≠ x := by
          rintro rfl
          exact decodeByte_ne_nul c hx
        simp only [List.length_cons]
        refine ⟨by omega, by omega, fun heq => ?_⟩
        rw [List.mem_cons, not_or]
        exact ⟨hne, hnul (by omega)⟩

theorem mgUrlDecode_isSome (src : List Byte) (dstLen : Nat) (hlen : src.length < dstLen) :
    (mgUrlDecode src dstLen true).isSome = true ↔ ∀ c ∈ src, SP < c :=
  urlDecodeLoop_isSome (dstLen - 1) src (by omega)

end CivetWeb
