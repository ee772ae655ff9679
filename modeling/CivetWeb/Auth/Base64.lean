import CivetWeb.Auth.AuthHeader
import CivetWeb.Conn.Write
import CivetWeb.Lib.Memory

namespace CivetWeb

def b64 : List Byte := ascii "ABCDEFGHIJKLMNOPQRSTUVWXYZabcdefghijklmnopqrstuvwxyz0123456789+/"

/-- `b64[n]`. -/
def b64Char (n : Nat) : Byte := b64.getD n 0

abbrev PAD : Byte := 61

/-- The loop of `mg_base64_encode`: `j` and the destination behind it. -/
def base64EncodeLoop (src : List Byte) : Nat → Nat → Nat → List Byte → Nat × List Byte
  | 0, _, j, dst => (j, dst)
  | n + 1, i, j, dst =>
    if i < src.length then
      let a := (deref (src.drop i)).toNat
      let b := if src.length ≤ i + 1 then 0 else (deref (src.drop (i + 1))).toNat
      let c := if src.length ≤ i + 2 then 0 else (deref (src.drop (i + 2))).toNat
      let dst := dst.set j (b64Char (a >>> 2))
      let dst := dst.set (j + 1) (b64Char (((a &&& 3) <<< 4) ||| (b >>> 4)))
      let dst := if i + 1 < src.length then dst.set (j + 2) (b64Char (((b &&& 15) <<< 2) ||| (c >>> 6))) else dst
      let j := if i + 1 < src.length then j + 3 else j + 2
      let dst := if i + 2 < src.length then dst.set j (b64Char (c &&& 63)) else dst
      let j := if i + 2 < src.length then j + 1 else j
      base64EncodeLoop src n (i + 3) j dst
    else (j, dst)

/-- The characters that fill the last group. -/
def base64PadLoop : Nat → Nat → List Byte → Nat × List Byte
  | 0, j, dst => (j, dst)
  | n + 1, j, dst => if j % 4 ≠ 0 then base64PadLoop n (j + 1) (dst.set j PAD) else (j, dst)

/-- `mg_base64_encode`: its result, `*dst_len` and the destination. No object in memory is so long that its
encoded length would wrap around in a `size_t`. -/
def mgBase64EncodeTo (src dst : List Byte) (dstLen : Option Nat) : Int × Option Nat × List Byte :=
  let expectedLen := (src.length + 2) / 3 * 4 + 1
  let write : Int × Option Nat × List Byte :=
    let (j, dst) := base64EncodeLoop src src.length 0 0 dst
    let (j, dst) := base64PadLoop 3 j dst
    (-1, dstLen.map fun _ => j + 1, dst.set j NUL)
  match dstLen with
  | some len =>
    if len < expectedLen then (0, some expectedLen, if 0 < len then dst.set 0 NUL else dst) else write
  | none => write

/-- The loop of `mg_base64_decode`: what it returns where it ends early, and `dst_len_used` and the
destination. -/
def base64DecodeLoop (src : List Byte) (limit : Nat) : Nat → Nat → Nat → List Byte → Option Int × Nat × List Byte
  | 0, _, used, dst => (none, used, dst)
  | n + 1, i, used, dst =>
    if i < src.length then
      let a := b64reverse (deref (src.drop i))
      let b := b64reverse (if src.length ≤ i + 1 then 0 else deref (src.drop (i + 1)))
      let c := b64reverse (if src.length ≤ i + 2 then 0 else deref (src.drop (i + 2)))
      let d := b64reverse (if src.length ≤ i + 3 then 0 else deref (src.drop (i + 3)))
      if 254 ≤ a then (some (toInt32 (i % 2 ^ 32)), used, dst)
      else if 254 ≤ b then (some (toInt32 (i % 2 ^ 32) + 1), used, dst)
      else if c = 254 then (some (toInt32 (i % 2 ^ 32) + 2), used, dst)
      else if d = 254 then (some (toInt32 (i % 2 ^ 32) + 3), used, dst)
      else
        let dst := if used < limit then dst.set used (UInt8.ofNat ((a <<< 2) + (b >>> 4))) else dst
        if c ≠ 255 then
          let dst := if used + 1 < limit then dst.set (used + 1) (UInt8.ofNat ((b <<< 4) + (c >>> 2))) else dst
          if d ≠ 255 then
            let dst := if used + 2 < limit then dst.set (used + 2) (UInt8.ofNat ((c <<< 6) + d)) else dst
            base64DecodeLoop src limit n (i + 4) (used + 3) dst
          else base64DecodeLoop src limit n (i + 4) (used + 2) dst
        else base64DecodeLoop src limit n (i + 4) (used + 1) dst
    else (none, used, dst)

/-- `mg_base64_decode`: its result, `*dst_len` and the destination. -/
def mgBase64DecodeTo (src dst : List Byte) (dstLen : Option Nat) : Int × Option Nat × List Byte :=
  let limit := dstLen.getD (2 ^ 64 - 1)
  match base64DecodeLoop src limit src.length 0 0 dst with
  | (some ret, _, dst) => (ret, dstLen.map fun _ => 0, dst)
  | (none, used, dst) =>
    (if limit < used + 1 then 0 else -1, dstLen.map fun _ => used + 1, if used < limit then dst.set used NUL else dst)

/-! ### The encoded text -/

/-- Three bytes as four characters of six bits each. -/
def base64Chars : List Byte → List Byte
  | [] => []
  | [a] => [b64Char (a.toNat / 4), b64Char (a.toNat % 4 * 16)]
  | [a, b] => [b64Char (a.toNat / 4), b64Char (a.toNat % 4 * 16 + b.toNat / 16), b64Char (b.toNat % 16 * 4)]
  | a :: b :: c :: rest =>
    b64Char (a.toNat / 4) :: b64Char (a.toNat % 4 * 16 + b.toNat / 16) ::
      b64Char (b.toNat % 16 * 4 + c.toNat / 64) :: b64Char (c.toNat % 64) :: base64Chars rest

/-- The Base64 text of a byte string. -/
def base64Text : List Byte → List Byte
  | [] => []
  | [a] => base64Chars [a] ++ [PAD, PAD]
  | [a, b] => base64Chars [a, b] ++ [PAD]
  | a :: b :: c :: rest => base64Chars [a, b, c] ++ base64Text rest

theorem base64Chars_group (a b c : Byte) (rest : List Byte) :
    base64Chars (a :: b :: c :: rest) = base64Chars [a, b, c] ++ base64Chars rest := rfl

theorem base64Text_length (s : List Byte) : (base64Text s).length = (s.length + 2) / 3 * 4 := by
  induction s using base64Text.induct with
  | case1 => rfl
  | case2 a => simp [base64Text, base64Chars]
  | case3 a b => simp [base64Text, base64Chars]
  | case4 a b c rest ih =>
    rw [base64Text, List.length_append, ih]
    simp only [base64Chars, List.length_cons, List.length_nil]
    omega

/-- The text is the characters, filled up to a whole group. -/
theorem base64Text_eq (s : List Byte) :
    base64Text s = base64Chars s ++ List.replicate ((4 - (base64Chars s).length % 4) % 4) PAD := by
  induction s using base64Text.induct with
  | case1 => rfl
  | case2 a => rfl
  | case3 a b => rfl
  | case4 a b c rest ih =>
    have hgroup := base64Chars_group a b c rest
    have hmod : (base64Chars (a :: b :: c :: rest)).length % 4 = (base64Chars rest).length % 4 := by
      have hfour : (base64Chars [a, b, c]).length = 4 := rfl
      rw [hgroup, List.length_append, hfour]
      omega
    rw [base64Text, ih, hmod, hgroup, List.append_assoc]

/-! ### The encoder -/

theorem shiftLeft_or (a : Nat) {b k : Nat} (hb : b < 2 ^ k) : (a <<< k) ||| b = a * 2 ^ k + b := by
  rw [← Nat.shiftLeft_add_eq_or_of_lt hb, Nat.shiftLeft_eq]

/-- The four characters of a group by division. -/
theorem base64_bits (a b c : Byte) :
    a.toNat >>> 2 = a.toNat / 4 ∧
      ((a.toNat &&& 3) <<< 4) ||| (b.toNat >>> 4) = a.toNat % 4 * 16 + b.toNat / 16 ∧
      ((b.toNat &&& 15) <<< 2) ||| (c.toNat >>> 6) = b.toNat % 16 * 4 + c.toNat / 64 ∧
      c.toNat &&& 63 = c.toNat % 64 := by
  have hb : b.toNat < 256 := b.toNat_lt
  have hc : c.toNat < 256 := c.toNat_lt
  have hdiv (n k : Nat) : n >>> k = n / 2 ^ k := Nat.shiftRight_eq_div_pow n k
  have hmask (n k : Nat) : n &&& 2 ^ k - 1 = n % 2 ^ k := Nat.and_two_pow_sub_one_eq_mod n k
  refine ⟨hdiv a.toNat 2, ?_, ?_, hmask c.toNat 6⟩
  · rw [hdiv, shiftLeft_or _ (by omega)]
    exact congrArg (· * 2 ^ 4 + b.toNat / 2 ^ 4) (hmask a.toNat 2)
  · rw [hdiv, shiftLeft_or _ (by omega)]
    exact congrArg (· * 2 ^ 2 + c.toNat / 2 ^ 6) (hmask b.toNat 4)

/-- The loop writes the characters of what is left of the source. -/
theorem base64EncodeLoop_eq (src : List Byte) (n i j : Nat) (dst rest : List Byte) (hrest : src.drop i = rest)
    (hn : rest.length ≤ 3 * n) :
    base64EncodeLoop src n i j dst = (j + (base64Chars rest).length, Memory.store dst j (base64Chars rest)) := by
  induction n generalizing i j dst rest with
  | zero =>
    obtain rfl := List.eq_nil_of_length_eq_zero (Nat.le_zero.mp hn)
    rfl
  | succ n ih =>
    have hlen : rest.length = src.length - i := by rw [← hrest, List.length_drop]
    have hnext (k : Nat) : src.drop (i + k) = rest.drop k := by rw [← hrest, List.drop_drop]
    rw [base64EncodeLoop]
    match rest with
    | [] =>
      rw [List.length_nil] at hlen
      rw [if_neg (by omega)]
      rfl
    | [a] =>
      rw [List.length_singleton] at hlen
      have hb : src.length ≤ i + 1 := by omega
      have hc : src.length ≤ i + 2 := by omega
      obtain ⟨h1, h2, -, -⟩ := base64_bits a 0 0
      rw [if_pos (by omega), hrest]
      simp only [if_pos hb, if_pos hc, if_neg hb.not_gt, if_neg hc.not_gt, deref_cons]
      rw [ih (i + 3) (j + 2) _ [] (by rw [hnext 3]; rfl) (Nat.zero_le _), h1]
      exact congrArg (fun x => (j + 2, (dst.set j (b64Char (a.toNat / 4))).set (j + 1) (b64Char x))) h2
    | [a, b] =>
      rw [List.length_cons, List.length_singleton] at hlen
      have hb : i + 1 < src.length := by omega
      have hc : src.length ≤ i + 2 := by omega
      obtain ⟨h1, h2, h3, -⟩ := base64_bits a b 0
      rw [if_pos (by omega), hrest, hnext 1]
      simp only [if_neg hb.not_ge, if_pos hc, if_pos hb, if_neg hc.not_gt, deref_cons, List.drop_succ_cons,
        List.drop_zero]
      rw [ih (i + 3) (j + 3) _ [] (by rw [hnext 3]; rfl) (Nat.zero_le _), h1, h2]
      exact congrArg (fun x => (j + 3, ((dst.set j (b64Char (a.toNat / 4))).set (j + 1)
        (b64Char (a.toNat % 4 * 16 + b.toNat / 16))).set (j + 2) (b64Char x))) h3
    | a :: b :: c :: tail =>
      rw [List.length_cons, List.length_cons, List.length_cons] at hlen hn
      have hb : i + 1 < src.length := by omega
      have hc : i + 2 < src.length := by omega
      obtain ⟨h1, h2, h3, h4⟩ := base64_bits a b c
      rw [if_pos (by omega), hrest, hnext 1, hnext 2]
      simp only [if_neg hb.not_ge, if_neg hc.not_ge, if_pos hb, if_pos hc, deref_cons, List.drop_succ_cons,
        List.drop_zero]
      rw [ih (i + 3) (j + 3 + 1) _ tail (by rw [hnext 3]; rfl) (by omega), h1, h2, h3, h4, base64Chars]
      rw [List.length_cons, List.length_cons, List.length_cons, List.length_cons, Memory.store_cons,
        Memory.store_cons, Memory.store_cons, Memory.store_cons]
      have hcount : j + 3 + 1 + (base64Chars tail).length = j + ((base64Chars tail).length + 1 + 1 + 1 + 1) := by omega
      rw [hcount]

theorem base64PadLoop_eq (n j : Nat) (dst : List Byte) (hn : (4 - j % 4) % 4 ≤ n) :
    base64PadLoop n j dst =
      (j + (4 - j % 4) % 4, Memory.store dst j (List.replicate ((4 - j % 4) % 4) PAD)) := by
  induction n generalizing j dst with
  | zero =>
    rw [Nat.le_zero.mp hn]
    rfl
  | succ n ih =>
    rw [base64PadLoop]
    by_cases hfull : j % 4 = 0
    · have hnone : (4 - j % 4) % 4 = 0 := by omega
      rw [if_neg (not_not.mpr hfull), hnone]
      rfl
    · obtain ⟨k, hk⟩ : ∃ k, (4 - j % 4) % 4 = k + 1 := ⟨(4 - j % 4) % 4 - 1, by omega⟩
      have hnext : (4 - (j + 1) % 4) % 4 = k := by omega
      rw [if_pos hfull, ih (j + 1) (dst.set j PAD) (by omega), hnext, hk, List.replicate_succ, Memory.store_cons,
        Nat.add_assoc, Nat.add_comm 1 k]

/-- The encoder writes the text with its end, if that fits. -/
theorem mgBase64EncodeTo_eq (src dst : List Byte) (dstLen : Nat) :
    mgBase64EncodeTo src dst (some dstLen) =
      if (base64Text src).length + 1 ≤ dstLen then
        (-1, some ((base64Text src).length + 1), Memory.store dst 0 (base64Text src ++ [NUL]))
      else (0, some ((base64Text src).length + 1), if 0 < dstLen then dst.set 0 NUL else dst) := by
  have hlen := base64Text_length src
  have htext := base64Text_eq src
  have hloop := base64EncodeLoop_eq src src.length 0 0 dst src rfl (by omega)
  rw [Nat.zero_add] at hloop
  have hpad := base64PadLoop_eq 3 (base64Chars src).length (Memory.store dst 0 (base64Chars src)) (by omega)
  have hcount : (base64Chars src).length + (4 - (base64Chars src).length % 4) % 4 = (base64Text src).length := by
    rw [htext, List.length_append, List.length_replicate]
  have hstore : Memory.store (Memory.store dst 0 (base64Chars src)) (base64Chars src).length
      (List.replicate ((4 - (base64Chars src).length % 4) % 4) PAD) = Memory.store dst 0 (base64Text src) := by
    rw [htext, Memory.store_append, Nat.zero_add]
  have hend : (Memory.store dst 0 (base64Text src)).set (base64Text src).length NUL =
      Memory.store dst 0 (base64Text src ++ [NUL]) := by
    rw [Memory.store_append, Nat.zero_add]
    rfl
  rw [hcount, hstore] at hpad
  unfold mgBase64EncodeTo
  rw [hloop]
  dsimp only
  rw [hpad, ← hlen]
  dsimp only
  by_cases hfit : (base64Text src).length + 1 ≤ dstLen
  · rw [if_neg hfit.not_gt, if_pos hfit, hend]
    rfl
  · rw [if_pos (Nat.lt_of_not_le hfit), if_neg hfit]

/-! ### The decoder -/

/-- A byte is stored below the limit, and so are those behind it. -/
theorem store_below (dst xs : List Byte) (limit used : Nat) (x : Byte) :
    Memory.store (if used < limit then dst.set used x else dst) (used + 1) (xs.take (limit - (used + 1))) =
      Memory.store dst used ((x :: xs).take (limit - used)) := by
  by_cases hlt : used < limit
  · obtain ⟨k, hk⟩ : ∃ k, limit - used = k + 1 := ⟨limit - used - 1, by omega⟩
    have hnext : limit - (used + 1) = k := by omega
    rw [if_pos hlt, hk, hnext, List.take_succ_cons, Memory.store_cons]
  · have hnone : limit - used = 0 := by omega
    have hnext : limit - (used + 1) = 0 := by omega
    rw [if_neg hlt, hnone, hnext]
    rfl

theorem base64_octets (a b c d : Nat) :
    (a <<< 2) + (b >>> 4) = a * 4 + b / 16 ∧ (b <<< 4) + (c >>> 2) = b * 16 + c / 4 ∧ (c <<< 6) + d = c * 64 + d := by
  rw [Nat.shiftLeft_eq, Nat.shiftLeft_eq, Nat.shiftLeft_eq, Nat.shiftRight_eq_div_pow, Nat.shiftRight_eq_div_pow]
  exact ⟨rfl, rfl, rfl⟩

/-- A turn of the loop, with the values of the four characters at hand. -/
theorem base64DecodeLoop_turn (src : List Byte) (limit n i used : Nat) (dst : List Byte) {a b c d : Nat}
    (hi : i < src.length) (ha : b64reverse (deref (src.drop i)) = a)
    (hb : b64reverse (if src.length ≤ i + 1 then 0 else deref (src.drop (i + 1))) = b)
    (hc : b64reverse (if src.length ≤ i + 2 then 0 else deref (src.drop (i + 2))) = c)
    (hd : b64reverse (if src.length ≤ i + 3 then 0 else deref (src.drop (i + 3))) = d) :
    base64DecodeLoop src limit (n + 1) i used dst =
      if 254 ≤ a then (some (toInt32 (i % 2 ^ 32)), used, dst)
      else if 254 ≤ b then (some (toInt32 (i % 2 ^ 32) + 1), used, dst)
      else if c = 254 then (some (toInt32 (i % 2 ^ 32) + 2), used, dst)
      else if d = 254 then (some (toInt32 (i % 2 ^ 32) + 3), used, dst)
      else
        let dst := if used < limit then dst.set used (UInt8.ofNat ((a <<< 2) + (b >>> 4))) else dst
        if c ≠ 255 then
          let dst := if used + 1 < limit then dst.set (used + 1) (UInt8.ofNat ((b <<< 4) + (c >>> 2))) else dst
          if d ≠ 255 then
            let dst := if used + 2 < limit then dst.set (used + 2) (UInt8.ofNat ((c <<< 6) + d)) else dst
            base64DecodeLoop src limit n (i + 4) (used + 3) dst
          else base64DecodeLoop src limit n (i + 4) (used + 2) dst
        else base64DecodeLoop src limit n (i + 4) (used + 1) dst := by
  rw [base64DecodeLoop, if_pos hi, ha, hb, hc, hd]

/-- A character that is none of the alphabet, or a padding out of place, ends the loop. -/
theorem base64DecodeLoop_stops (src : List Byte) (limit n i used : Nat) (dst : List Byte) {a b c d : Nat}
    (hi : i < src.length) (ha : b64reverse (deref (src.drop i)) = a)
    (hb : b64reverse (if src.length ≤ i + 1 then 0 else deref (src.drop (i + 1))) = b)
    (hc : b64reverse (if src.length ≤ i + 2 then 0 else deref (src.drop (i + 2))) = c)
    (hd : b64reverse (if src.length ≤ i + 3 then 0 else deref (src.drop (i + 3))) = d)
    (hbad : 254 ≤ a ∨ 254 ≤ b ∨ c = 254 ∨ d = 254) :
    (base64DecodeLoop src limit (n + 1) i used dst).1 ≠ none := by
  rw [base64DecodeLoop_turn src limit n i used dst hi ha hb hc hd]
  by_cases h1 : 254 ≤ a
  · rw [if_pos h1]
    exact nofun
  rw [if_neg h1]
  by_cases h2 : 254 ≤ b
  · rw [if_pos h2]
    exact nofun
  rw [if_neg h2]
  by_cases h3 : c = 254
  · rw [if_pos h3]
    exact nofun
  rw [if_neg h3, if_pos (((hbad.resolve_left h1).resolve_left h2).resolve_left h3)]
  exact nofun

/-- The loop stores what the groups of the source stand for, or it ends with an error. -/
theorem base64DecodeLoop_eq (src : List Byte) (limit n i used : Nat) (dst rest : List Byte)
    (hrest : src.drop i = rest) (hn : rest.length ≤ 4 * n) :
    (∀ d, base64Groups rest = some d →
      base64DecodeLoop src limit n i used dst =
        (none, used + d.length, Memory.store dst used (d.take (limit - used)))) ∧
      (base64Groups rest = none → (base64DecodeLoop src limit n i used dst).1 ≠ none) := by
  induction n generalizing i used dst rest with
  | zero =>
    obtain rfl := List.eq_nil_of_length_eq_zero (Nat.le_zero.mp hn)
    refine ⟨fun d hd => ?_, fun h => absurd h nofun⟩
    obtain rfl := Option.some.inj hd
    rw [List.take_nil]
    rfl
  | succ n ih =>
    have hlen : rest.length = src.length - i := by rw [← hrest, List.length_drop]
    have hnext (k : Nat) : src.drop (i + k) = rest.drop k := by rw [← hrest, List.drop_drop]
    have hnul : b64reverse 0 = 254 := by decide
    match rest with
    | [] =>
      rw [List.length_nil] at hlen
      rw [base64DecodeLoop, if_neg (by omega)]
      refine ⟨fun d hd => ?_, fun h => absurd h nofun⟩
      obtain rfl := Option.some.inj hd
      rw [List.take_nil]
      rfl
    | [x] =>
      rw [List.length_singleton] at hlen
      have hb : src.length ≤ i + 1 := by omega
      refine ⟨fun d hd => absurd hd nofun, fun _ => ?_⟩
      exact base64DecodeLoop_stops src limit n i used dst (by omega) rfl (by rw [if_pos hb, hnul]) rfl rfl
        (.inr (.inl (le_refl 254)))
    | [x, y] =>
      rw [List.length_cons, List.length_singleton] at hlen
      have hc : src.length ≤ i + 2 := by omega
      refine ⟨fun d hd => absurd hd nofun, fun _ => ?_⟩
      exact base64DecodeLoop_stops src limit n i used dst (by omega) rfl rfl (by rw [if_pos hc, hnul]) rfl
        (.inr (.inr (.inl rfl)))
    | [x, y, z] =>
      rw [List.length_cons, List.length_cons, List.length_singleton] at hlen
      have hd : src.length ≤ i + 3 := by omega
      refine ⟨fun d hd => absurd hd nofun, fun _ => ?_⟩
      exact base64DecodeLoop_stops src limit n i used dst (by omega) rfl rfl rfl (by rw [if_pos hd, hnul])
        (.inr (.inr (.inr rfl)))
    | x :: y :: z :: w :: tail =>
      rw [List.length_cons, List.length_cons, List.length_cons, List.length_cons] at hlen hn
      have hi : i < src.length := by omega
      have htail : src.drop (i + 4) = tail := by rw [hnext 4]; rfl
      have ha : b64reverse (deref (src.drop i)) = b64reverse x := by rw [hrest, deref_cons]
      have hb : b64reverse (if src.length ≤ i + 1 then 0 else deref (src.drop (i + 1))) = b64reverse y := by
        rw [if_neg (by omega), hnext 1]
        rfl
      have hc : b64reverse (if src.length ≤ i + 2 then 0 else deref (src.drop (i + 2))) = b64reverse z := by
        rw [if_neg (by omega), hnext 2]
        rfl
      have hd : b64reverse (if src.length ≤ i + 3 then 0 else deref (src.drop (i + 3))) = b64reverse w := by
        rw [if_neg (by omega), hnext 3]
        rfl
      have hturn := base64DecodeLoop_turn src limit n i used dst hi ha hb hc hd
      have hstops := base64DecodeLoop_stops src limit n i used dst hi ha hb hc hd
      rw [base64Groups]
      generalize b64reverse x = a, b64reverse y = b, b64reverse z = c, b64reverse w = d at hturn hstops ⊢
      dsimp only
      by_cases hbad : 254 ≤ a ∨ 254 ≤ b ∨ c = 254 ∨ d = 254
      · rw [if_pos hbad]
        exact ⟨fun e he => absurd he nofun, fun _ => hstops hbad⟩
      · rw [if_neg hbad]
        simp only [not_or] at hbad
        obtain ⟨ha, hb, hc, hd⟩ := hbad
        obtain ⟨h1, h2, h3⟩ := base64_octets a b c d
        rw [hturn, if_neg ha, if_neg hb, if_neg hc, if_neg hd, h1, h2, h3]
        -- what a group stores in front of the next ones
        have hgroup (us : List Byte) (dst' : List Byte)
            (hstore : ∀ xs : List Byte, Memory.store dst' (used + us.length) (xs.take (limit - (used + us.length))) =
              Memory.store dst used ((us ++ xs).take (limit - used))) :
            (∀ e, (base64Groups tail).map (us ++ ·) = some e →
              base64DecodeLoop src limit n (i + 4) (used + us.length) dst' =
                (none, used + e.length, Memory.store dst used (e.take (limit - used)))) ∧
              ((base64Groups tail).map (us ++ ·) = none →
                (base64DecodeLoop src limit n (i + 4) (used + us.length) dst').1 ≠ none) := by
          obtain ⟨hsome, hnone⟩ := ih (i + 4) (used + us.length) dst' tail htail (by omega)
          refine ⟨fun e he => ?_, fun h => hnone (Option.map_eq_none_iff.mp h)⟩
          obtain ⟨e', he', rfl⟩ := Option.map_eq_some_iff.mp he
          rw [hsome e' he', hstore e', List.length_append, Nat.add_assoc]
        by_cases hcend : c = 255
        · rw [if_neg (not_not.mpr hcend), if_pos hcend]
          exact hgroup [UInt8.ofNat (a * 4 + b / 16)] _ fun xs => store_below dst xs limit used _
        · rw [if_pos hcend, if_neg hcend]
          by_cases hdend : d = 255
          · rw [if_neg (not_not.mpr hdend), if_pos hdend]
            refine hgroup [UInt8.ofNat (a * 4 + b / 16), UInt8.ofNat (b * 16 + c / 4)] _ fun xs => ?_
            exact (store_below _ xs limit (used + 1) _).trans (store_below dst _ limit used _)
          · rw [if_pos hdend, if_neg hdend]
            refine hgroup [UInt8.ofNat (a * 4 + b / 16), UInt8.ofNat (b * 16 + c / 4), UInt8.ofNat (c * 64 + d)] _
              fun xs => ?_
            exact (store_below _ xs limit (used + 2) _).trans
              ((store_below _ _ limit (used + 1) _).trans (store_below dst _ limit used _))

/-- The decoder stores what its source stands for with its end, as far as the limit goes. -/
theorem mgBase64DecodeTo_eq {src d : List Byte} (dst : List Byte) (limit : Nat) (hd : base64Groups src = some d) :
    mgBase64DecodeTo src dst (some limit) =
      (if d.length + 1 ≤ limit then -1 else 0, some (d.length + 1),
        Memory.store dst 0 ((d ++ [NUL]).take limit)) := by
  have hloop := (base64DecodeLoop_eq src limit src.length 0 0 dst src rfl (by omega)).1 d hd
  rw [Nat.zero_add, Nat.sub_zero] at hloop
  unfold mgBase64DecodeTo
  rw [Option.getD_some]
  dsimp only
  rw [hloop]
  dsimp only
  by_cases hfit : d.length + 1 ≤ limit
  · have htake : (d ++ [NUL]).take limit = d ++ [NUL] := List.take_of_length_le (by simpa using hfit)
    have hlt : d.length < limit := hfit
    rw [if_neg hfit.not_gt, if_pos hfit, if_pos hlt, htake, List.take_of_length_le (by omega), Memory.store_append,
      Nat.zero_add]
    rfl
  · have hge : ¬ d.length < limit := hfit
    rw [if_pos (Nat.lt_of_not_le hfit), if_neg hfit, if_neg hge, List.take_append_of_le_length (by omega)]
    rfl

/-- A source with an error is reported with the length 0. -/
theorem mgBase64DecodeTo_refused (src dst : List Byte) (limit : Nat) :
    (mgBase64DecodeTo src dst (some limit)).2.1 = some 0 ↔ base64Groups src = none := by
  cases hd : base64Groups src with
  | some d =>
    rw [mgBase64DecodeTo_eq dst limit hd]
    exact iff_of_false (fun h => absurd (Option.some.inj h) (Nat.succ_ne_zero _)) nofun
  | none =>
    have hloop := (base64DecodeLoop_eq src limit src.length 0 0 dst src rfl (by omega)).2 hd
    refine iff_of_true ?_ rfl
    unfold mgBase64DecodeTo
    rw [Option.getD_some]
    dsimp only
    match hend : base64DecodeLoop src limit src.length 0 0 dst with
    | (some ret, used, dst') => rfl
    | (none, used, dst') =>
      rw [hend] at hloop
      exact absurd rfl hloop

/-! ### Encoded and decoded again -/

theorem b64reverse_b64Char : ∀ n < 64, b64reverse (b64Char n) = n := by decide +kernel

/-- The octets of a group are put together again. -/
theorem base64_joined (a b c : Byte) :
    UInt8.ofNat (a.toNat / 4 * 4 + (a.toNat % 4 * 16 + b.toNat / 16) / 16) = a ∧
      UInt8.ofNat ((a.toNat % 4 * 16 + b.toNat / 16) * 16 + (b.toNat % 16 * 4 + c.toNat / 64) / 4) = b ∧
      UInt8.ofNat ((b.toNat % 16 * 4 + c.toNat / 64) * 64 + c.toNat % 64) = c := by
  have ha : a.toNat < 256 := a.toNat_lt
  have hb : b.toNat < 256 := b.toNat_lt
  have hc : c.toNat < 256 := c.toNat_lt
  refine ⟨?_, ?_, ?_⟩
  · rw [← UInt8.toNat_inj, UInt8.toNat_ofNat']
    omega
  · rw [← UInt8.toNat_inj, UInt8.toNat_ofNat']
    omega
  · rw [← UInt8.toNat_inj, UInt8.toNat_ofNat']
    omega

/-- The groups of the text are the bytes it was made of. -/
theorem base64Groups_base64Text (s : List Byte) : base64Groups (base64Text s) = some s := by
  have hpad : b64reverse PAD = 255 := by decide
  induction s using base64Text.induct with
  | case1 => rfl
  | case2 a =>
    have ha : a.toNat < 256 := a.toNat_lt
    have hjoin := (base64_joined a 0 0).1
    have h1 := b64reverse_b64Char (a.toNat / 4) (by omega)
    have h2 := b64reverse_b64Char (a.toNat % 4 * 16) (by omega)
    have hok : ¬ (254 ≤ a.toNat / 4 ∨ 254 ≤ a.toNat % 4 * 16 ∨ 255 = 254 ∨ 255 = 254) := by omega
    have hgroup : base64Groups [b64Char (a.toNat / 4), b64Char (a.toNat % 4 * 16), PAD, PAD] =
        some [UInt8.ofNat (a.toNat / 4 * 4 + (a.toNat % 4 * 16 + UInt8.toNat 0 / 16) / 16)] := by
      rw [base64Groups, h1, h2, hpad]
      exact if_neg hok
    rw [hjoin] at hgroup
    exact hgroup
  | case3 a b =>
    have ha : a.toNat < 256 := a.toNat_lt
    have hb : b.toNat < 256 := b.toNat_lt
    obtain ⟨hjoin1, hjoin2, -⟩ := base64_joined a b 0
    have h1 := b64reverse_b64Char (a.toNat / 4) (by omega)
    have h2 := b64reverse_b64Char (a.toNat % 4 * 16 + b.toNat / 16) (by omega)
    have h3 := b64reverse_b64Char (b.toNat % 16 * 4) (by omega)
    have hok : ¬ (254 ≤ a.toNat / 4 ∨ 254 ≤ a.toNat % 4 * 16 + b.toNat / 16 ∨ b.toNat % 16 * 4 = 254 ∨ 255 = 254) := by
      omega
    have hthird : ¬ b.toNat % 16 * 4 = 255 := by omega
    have hgroup : base64Groups [b64Char (a.toNat / 4), b64Char (a.toNat % 4 * 16 + b.toNat / 16),
        b64Char (b.toNat % 16 * 4), PAD] =
        some [UInt8.ofNat (a.toNat / 4 * 4 + (a.toNat % 4 * 16 + b.toNat / 16) / 16),
          UInt8.ofNat ((a.toNat % 4 * 16 + b.toNat / 16) * 16 + (b.toNat % 16 * 4 + UInt8.toNat 0 / 64) / 4)] := by
      rw [base64Groups, h1, h2, h3, hpad]
      dsimp only
      rw [if_neg hok, if_neg hthird]
      rfl
    rw [hjoin1, hjoin2] at hgroup
    exact hgroup
  | case4 a b c rest ih =>
    have ha : a.toNat < 256 := a.toNat_lt
    have hb : b.toNat < 256 := b.toNat_lt
    have hc : c.toNat < 256 := c.toNat_lt
    obtain ⟨hjoin1, hjoin2, hjoin3⟩ := base64_joined a b c
    have h1 := b64reverse_b64Char (a.toNat / 4) (by omega)
    have h2 := b64reverse_b64Char (a.toNat % 4 * 16 + b.toNat / 16) (by omega)
    have h3 := b64reverse_b64Char (b.toNat % 16 * 4 + c.toNat / 64) (by omega)
    have h4 := b64reverse_b64Char (c.toNat % 64) (by omega)
    have hok : ¬ (254 ≤ a.toNat / 4 ∨ 254 ≤ a.toNat % 4 * 16 + b.toNat / 16 ∨
        b.toNat % 16 * 4 + c.toNat / 64 = 254 ∨ c.toNat % 64 = 254) := by omega
    have hthird : ¬ b.toNat % 16 * 4 + c.toNat / 64 = 255 := by omega
    have hfourth : ¬ c.toNat % 64 = 255 := by omega
    have hgroup : base64Groups (b64Char (a.toNat / 4) :: b64Char (a.toNat % 4 * 16 + b.toNat / 16) ::
        b64Char (b.toNat % 16 * 4 + c.toNat / 64) :: b64Char (c.toNat % 64) :: base64Text rest) =
        (base64Groups (base64Text rest)).map
          ([UInt8.ofNat (a.toNat / 4 * 4 + (a.toNat % 4 * 16 + b.toNat / 16) / 16),
            UInt8.ofNat ((a.toNat % 4 * 16 + b.toNat / 16) * 16 + (b.toNat % 16 * 4 + c.toNat / 64) / 4),
            UInt8.ofNat ((b.toNat % 16 * 4 + c.toNat / 64) * 64 + c.toNat % 64)] ++ ·) := by
      rw [base64Groups, h1, h2, h3, h4]
      dsimp only
      rw [if_neg hok, if_neg hthird, if_neg hfourth]
    rw [hjoin1, hjoin2, hjoin3, ih] at hgroup
    exact hgroup

/-- Base64 with exact lengths: the encoder succeeds exactly where the text and its end fit, and the decoder
gives the bytes back where they and their end fit, else it stores those below the limit. -/
theorem base64_roundTrip (s dst : List Byte) (dstLen : Nat) :
    (base64Text s).length = 4 * ((s.length + 2) / 3) ∧
      ((mgBase64EncodeTo s dst (some dstLen)).1 = -1 ↔ 4 * ((s.length + 2) / 3) + 1 ≤ dstLen) ∧
      (4 * ((s.length + 2) / 3) + 1 ≤ dstLen →
        mgBase64EncodeTo s dst (some dstLen) =
          (-1, some ((base64Text s).length + 1), Memory.store dst 0 (base64Text s ++ [NUL]))) ∧
      (dstLen < 4 * ((s.length + 2) / 3) + 1 →
        mgBase64EncodeTo s dst (some dstLen) =
          (0, some ((base64Text s).length + 1), if 0 < dstLen then dst.set 0 NUL else dst)) ∧
      (s.length + 1 ≤ dstLen →
        mgBase64DecodeTo (base64Text s) dst (some dstLen) =
          (-1, some (s.length + 1), Memory.store dst 0 (s ++ [NUL]))) ∧
      (dstLen < s.length + 1 →
        mgBase64DecodeTo (base64Text s) dst (some dstLen) =
          (0, some (s.length + 1), Memory.store dst 0 (s.take dstLen))) ∧
      (mgBase64DecodeTo (base64Text s) dst (some dstLen)).2.2.drop dstLen = dst.drop dstLen := by
  have hlen : (base64Text s).length = 4 * ((s.length + 2) / 3) := (base64Text_length s).trans (Nat.mul_comm _ _)
  have henc := mgBase64EncodeTo_eq s dst dstLen
  have hdec := mgBase64DecodeTo_eq dst dstLen (base64Groups_base64Text s)
  rw [← hlen]
  refine ⟨rfl, ?_, fun h => ?_, fun h => ?_, fun h => ?_, fun h => ?_, ?_⟩
  · rw [henc]
    by_cases hfit : (base64Text s).length + 1 ≤ dstLen
    · rw [if_pos hfit]
      exact iff_of_true rfl hfit
    · rw [if_neg hfit]
      exact iff_of_false nofun hfit
  · rw [henc, if_pos h]
  · rw [henc, if_neg h.not_ge]
  · rw [hdec, if_pos h, List.take_of_length_le (by simpa using h)]
  · rw [hdec, if_neg h.not_ge, List.take_append_of_le_length (by omega)]
  · rw [hdec]
    apply Memory.drop_store
    rw [Nat.zero_add]
    exact List.length_take_le _ _

end CivetWeb
