import CivetWeb.Conn.Write
import CivetWeb.Form.FormVars
import CivetWeb.Http.Percent
import CivetWeb.Lib.Memory

namespace CivetWeb

/-! ### `mg_url_encode` and `mg_url_decode` in memory -/

/-- The loop of `mg_url_encode` with `pos` and `end` counted from `dst`: the source that is left, `pos` and
the memory. -/
def urlEncodeLoop (dst stop : Nat) : List Byte → Nat → List Byte → List Byte × Nat × List Byte
  | [], pos, mem => ([], pos, mem)
  | c :: src, pos, mem =>
    if c ≠ NUL ∧ pos < stop then
      if isalnum c || (ascii "._-$,;~()").contains c then
        urlEncodeLoop dst stop src (pos + 1) (mem.set (dst + pos) c)
      else if pos + 2 < stop then
        let hex := ascii "0123456789abcdef"
        urlEncodeLoop dst stop src (pos + 3)
          (((mem.set (dst + pos) PERCENT).set (dst + pos + 1) (hex.getD (c >>> 4).toNat 0)).set (dst + pos + 2)
            (hex.getD (c &&& 0xf).toNat 0))
      else (c :: src, pos, mem)
    else (c :: src, pos, mem)

/-- `mg_url_encode` of a C string to the `dstLen` bytes at `dst`: its result and the memory. -/
def mgUrlEncodeTo (src mem : List Byte) (dst dstLen : Nat) : Int × List Byte :=
  let (src, pos, mem) := urlEncodeLoop dst (dstLen - 1) src 0 mem
  (if deref src = NUL then toInt32 (pos % 2 ^ 32) else -1, mem.set (dst + pos) NUL)

/-- The loop of `mg_url_decode` for the `srcLen` bytes at `src` and the `dstLen` bytes at `dst`. -/
def urlDecodeAt (isForm : Bool) (src : Nat) (srcLen : Int) (dst : Nat) (dstLen : Int) :
    Nat → Nat → Nat → List Byte → Int × List Byte
  | 0, _, _, mem => (-1, mem)
  | n + 1, i, j, mem =>
    if (i : Int) < srcLen ∧ (j : Int) < dstLen - 1 then
      let c := deref (mem.drop (src + i))
      let a := deref (mem.drop (src + i + 1))
      let b := deref (mem.drop (src + i + 2))
      if (i : Int) < srcLen - 2 ∧ c = PERCENT ∧ isxdigit a ∧ isxdigit b then
        urlDecodeAt isForm src srcLen dst dstLen n (i + 3) (j + 1) (mem.set (dst + j) (hexByte a b))
      else
        match decodeByte isForm c with
        | none => (-1, mem)
        | some d => urlDecodeAt isForm src srcLen dst dstLen n (i + 1) (j + 1) (mem.set (dst + j) d)
    else (if srcLen ≤ i then j else -1, mem.set (dst + j) NUL)

/-- `mg_url_decode`: its result and the memory. -/
def mgUrlDecodeTo (isForm : Bool) (mem : List Byte) (src : Nat) (srcLen : Int) (dst : Nat) (dstLen : Int) :
    Int × List Byte :=
  urlDecodeAt isForm src srcLen dst dstLen (srcLen.toNat + 1) 0 0 mem

/-! ### The encoded text -/

/-- A character that an encoded text has for itself. -/
def unreserved (c : Byte) : Bool := isalnum c || (ascii "._-$,;~()").contains c

def lowerHex (c : Byte) : Bool := (ascii "0123456789abcdef").contains c

/-- Unreserved characters and lower case escapes. -/
inductive EscapedText : List Byte → Prop
  | nil : EscapedText []
  | kept {c : Byte} {s : List Byte} : unreserved c = true → EscapedText s → EscapedText (c :: s)
  | escape {a b : Byte} {s : List Byte} : lowerHex a = true → lowerHex b = true → EscapedText s →
      EscapedText (PERCENT :: a :: b :: s)

theorem urlEncodeByte_kept {c : Byte} (hc : unreserved c = true) : urlEncodeByte c = [c] :=
  if_pos hc

theorem urlEncodeByte_escaped {c : Byte} (hc : unreserved c = false) :
    urlEncodeByte c = [PERCENT, (ascii "0123456789abcdef").getD (c >>> 4).toNat 0,
      (ascii "0123456789abcdef").getD (c &&& 0xf).toNat 0] := by
  have hnot : ¬ unreserved c = true := by
    rw [hc]
    exact nofun
  exact if_neg hnot

/-- An escape is read back as the character that it was made of. -/
theorem urlEncodeByte_hex {c : Byte} (hc : unreserved c = false) :
    ∃ a b, urlEncodeByte c = [PERCENT, a, b] ∧ lowerHex a = true ∧ lowerHex b = true ∧ hexByte a b = c := by
  have hhigh : ∀ c : Byte, lowerHex ((ascii "0123456789abcdef").getD (c >>> 4).toNat 0) = true :=
    byte_all _ (by decide +kernel)
  have hlow : ∀ c : Byte, lowerHex ((ascii "0123456789abcdef").getD (c &&& 0xf).toNat 0) = true :=
    byte_all _ (by decide +kernel)
  have hback : ∀ c : Byte, hexByte ((ascii "0123456789abcdef").getD (c >>> 4).toNat 0)
      ((ascii "0123456789abcdef").getD (c &&& 0xf).toNat 0) = c :=
    byte_all _ (by decide +kernel)
  exact ⟨_, _, urlEncodeByte_escaped hc, hhigh c, hlow c, hback c⟩

theorem mgUrlEncode_cons (c : Byte) (s : List Byte) : mgUrlEncode (c :: s) = urlEncodeByte c ++ mgUrlEncode s :=
  List.flatMap_cons

theorem escapedText_mgUrlEncode (s : List Byte) : EscapedText (mgUrlEncode s) := by
  induction s with
  | nil => exact .nil
  | cons c s ih =>
    rw [mgUrlEncode_cons]
    cases hc : unreserved c with
    | true =>
      rw [urlEncodeByte_kept hc]
      exact .kept hc ih
    | false =>
      obtain ⟨a, b, henc, ha, hb, -⟩ := urlEncodeByte_hex hc
      rw [henc]
      exact .escape ha hb ih

/-! ### The encoder -/

/-- A character that fits is written, the loop ends with one that does not. -/
theorem urlEncodeLoop_cons (dst stop : Nat) (c : Byte) (src : List Byte) (pos : Nat) (mem : List Byte)
    (hc : c ≠ NUL) :
    urlEncodeLoop dst stop (c :: src) pos mem =
      if pos + (urlEncodeByte c).length ≤ stop then
        urlEncodeLoop dst stop src (pos + (urlEncodeByte c).length) (Memory.store mem (dst + pos) (urlEncodeByte c))
      else (c :: src, pos, mem) := by
  rw [urlEncodeLoop, ← unreserved]
  cases hkept : unreserved c with
  | true =>
    rw [urlEncodeByte_kept hkept, List.length_singleton]
    by_cases hlt : pos < stop
    · rw [if_pos ⟨hc, hlt⟩, if_pos rfl, if_pos (Nat.succ_le_of_lt hlt)]
      rfl
    · have hfull : ¬ pos + 1 ≤ stop := hlt
      rw [if_neg (fun h => hlt h.2), if_neg hfull]
  | false =>
    rw [urlEncodeByte_escaped hkept, List.length_cons, List.length_cons, List.length_singleton]
    by_cases hlt : pos + 2 < stop
    · rw [if_pos ⟨hc, by omega⟩, if_neg Bool.false_ne_true, if_pos hlt, if_pos (by omega)]
      rfl
    · rw [if_neg (by omega : ¬ pos + (1 + 1 + 1) ≤ stop)]
      by_cases hroom : pos < stop
      · rw [if_pos ⟨hc, hroom⟩, if_neg Bool.false_ne_true, if_neg hlt]
      · rw [if_neg (fun h => hroom h.2)]

/-- The loop writes the encoding of the longest part that fits. -/
theorem urlEncodeLoop_eq (dst stop : Nat) (src : List Byte) (pos : Nat) (mem : List Byte) (hsrc : NUL ∉ src)
    (hpos : pos ≤ stop) :
    ∃ done rest, src = done ++ rest ∧
      urlEncodeLoop dst stop src pos mem =
        (rest, pos + (mgUrlEncode done).length, Memory.store mem (dst + pos) (mgUrlEncode done)) ∧
      pos + (mgUrlEncode done).length ≤ stop ∧ (rest ≠ [] → stop < pos + (mgUrlEncode src).length) := by
  induction src generalizing pos mem with
  | nil => exact ⟨[], [], rfl, rfl, hpos, fun h => absurd rfl h⟩
  | cons c src ih =>
    rw [List.mem_cons, not_or] at hsrc
    rw [urlEncodeLoop_cons dst stop c src pos mem (Ne.symm hsrc.1)]
    by_cases hfit : pos + (urlEncodeByte c).length ≤ stop
    · obtain ⟨done, rest, hsplit, heq, hle, hrest⟩ :=
        ih (pos + (urlEncodeByte c).length) (Memory.store mem (dst + pos) (urlEncodeByte c)) hsrc.2 hfit
      have hlen : (mgUrlEncode (c :: done)).length = (urlEncodeByte c).length + (mgUrlEncode done).length := by
        rw [mgUrlEncode_cons, List.length_append]
      have hall : (mgUrlEncode (c :: src)).length = (urlEncodeByte c).length + (mgUrlEncode src).length := by
        rw [mgUrlEncode_cons, List.length_append]
      refine ⟨c :: done, rest, by rw [hsplit]; rfl, ?_, by omega, fun h => by have := hrest h; omega⟩
      rw [if_pos hfit, heq, hlen, mgUrlEncode_cons, Memory.store_append, Nat.add_assoc, Nat.add_assoc]
    · refine ⟨[], c :: src, rfl, by rw [if_neg hfit]; rfl, hpos, fun _ => ?_⟩
      rw [mgUrlEncode_cons, List.length_append]
      omega

/-- A text that fits is written with its end, and what does not fit is cut off. -/
theorem mgUrlEncodeTo_eq (src mem : List Byte) (dst dstLen : Nat) (hsrc : NUL ∉ src) :
    ∃ done rest, src = done ++ rest ∧ (mgUrlEncode done).length ≤ dstLen - 1 ∧
      (rest = [] ↔ (mgUrlEncode src).length ≤ dstLen - 1) ∧
      mgUrlEncodeTo src mem dst dstLen =
        (if rest = [] then toInt32 ((mgUrlEncode src).length % 2 ^ 32) else -1,
          Memory.store mem dst (mgUrlEncode done ++ [NUL])) := by
  obtain ⟨done, rest, hsplit, heq, hle, hrest⟩ :=
    urlEncodeLoop_eq dst (dstLen - 1) src 0 mem hsrc (Nat.zero_le _)
  rw [Nat.zero_add] at heq hle
  rw [Nat.zero_add] at hrest
  have hend : rest = [] ↔ deref rest = NUL := by
    cases rest with
    | nil => exact ⟨fun _ => rfl, fun _ => rfl⟩
    | cons c rest =>
      have hc : c ≠ NUL := by
        rintro rfl
        exact hsrc (by rw [hsplit]; simp)
      exact ⟨fun h => absurd h nofun, fun h => absurd h hc⟩
  refine ⟨done, rest, hsplit, hle, ⟨?_, fun h => ?_⟩, ?_⟩
  · rintro rfl
    rw [hsplit, List.append_nil]
    exact hle
  · by_contra hne
    exact absurd (hrest hne) (by omega)
  · have hmem : (Memory.store mem dst (mgUrlEncode done)).set (dst + (mgUrlEncode done).length) NUL =
        Memory.store mem dst (mgUrlEncode done ++ [NUL]) := by
      rw [Memory.store_append]
      rfl
    unfold mgUrlEncodeTo
    rw [heq]
    dsimp only
    rw [Nat.add_zero, hmem]
    by_cases hnil : rest = []
    · rw [if_pos (hend.mp hnil), if_pos hnil, hsplit, hnil, List.append_nil]
    · rw [if_neg (fun h => hnil (hend.mpr h)), if_neg hnil]

/-! ### The decoder -/

/-- What the decoder leaves at its destination: no NUL stands behind a text with an invalid character. -/
def urlDecodeStored (isForm : Bool) (room : Nat) (text : List Byte) : List Byte :=
  let written := urlDecodeWritten isForm room text
  if urlDecodeLoop isForm room text = none ∧ written.length < room then written else written ++ [NUL]

theorem urlDecodeWritten_copy (isForm : Bool) (room : Nat) (c : Byte) (src : List Byte)
    (hc : ¬ (c = PERCENT ∧ ∃ a b rest, src = a :: b :: rest ∧ isxdigit a ∧ isxdigit b)) :
    urlDecodeWritten isForm (room + 1) (c :: src) =
      ((decodeByte isForm c).map (· :: urlDecodeWritten isForm room src)).getD [] := by
  match src with
  | [] => rfl
  | [_] => rfl
  | a :: b :: rest =>
    rw [urlDecodeWritten]
    apply if_neg
    rintro ⟨hp, ha, hb⟩
    exact hc ⟨hp, a, b, rest, rfl, ha, hb⟩

theorem urlDecodeStored_nil (isForm : Bool) (room : Nat) : urlDecodeStored isForm room [] = [NUL] := by
  cases room <;> rfl

theorem urlDecodeStored_full (isForm : Bool) (c : Byte) (src : List Byte) :
    urlDecodeStored isForm 0 (c :: src) = [NUL] := rfl

theorem urlDecodeStored_step {isForm : Bool} {room : Nat} {c d : Byte} {src rest : List Byte}
    (hloop : urlDecodeLoop isForm (room + 1) (c :: src) = (urlDecodeLoop isForm room rest).map (d :: ·))
    (hwritten : urlDecodeWritten isForm (room + 1) (c :: src) = d :: urlDecodeWritten isForm room rest) :
    urlDecodeStored isForm (room + 1) (c :: src) = d :: urlDecodeStored isForm room rest := by
  unfold urlDecodeStored
  simp only [hloop, hwritten, Option.map_eq_none_iff, List.length_cons, Nat.add_lt_add_iff_right]
  split <;> rfl

theorem urlDecodeStored_escape (isForm : Bool) (room : Nat) (a b : Byte) (rest : List Byte)
    (ha : isxdigit a = true) (hb : isxdigit b = true) :
    urlDecodeStored isForm (room + 1) (PERCENT :: a :: b :: rest) =
      hexByte a b :: urlDecodeStored isForm room rest := by
  apply urlDecodeStored_step
  · rw [urlDecodeLoop, if_pos ⟨rfl, ha, hb⟩]
  · rw [urlDecodeWritten, if_pos ⟨rfl, ha, hb⟩]

theorem urlDecodeStored_copy (isForm : Bool) (room : Nat) (c d : Byte) (src : List Byte)
    (hc : ¬ (c = PERCENT ∧ ∃ a b rest, src = a :: b :: rest ∧ isxdigit a ∧ isxdigit b))
    (hd : decodeByte isForm c = some d) :
    urlDecodeStored isForm (room + 1) (c :: src) = d :: urlDecodeStored isForm room src := by
  apply urlDecodeStored_step
  · rw [urlDecodeLoop_copy isForm room c src hc, hd, Option.bind_some]
  · rw [urlDecodeWritten_copy isForm room c src hc, hd, Option.map_some, Option.getD_some]

theorem urlDecodeStored_invalid (isForm : Bool) (room : Nat) (c : Byte) (src : List Byte)
    (hc : ¬ (c = PERCENT ∧ ∃ a b rest, src = a :: b :: rest ∧ isxdigit a ∧ isxdigit b))
    (hd : decodeByte isForm c = none) : urlDecodeStored isForm (room + 1) (c :: src) = [] := by
  have hloop := urlDecodeLoop_copy isForm room c src hc
  have hwritten := urlDecodeWritten_copy isForm room c src hc
  rw [hd] at hloop hwritten
  unfold urlDecodeStored
  rw [hloop, hwritten]
  exact if_pos ⟨rfl, Nat.succ_pos room⟩

/-- The decoder's look ahead finds the escapes of the text, and no others behind its end. -/
theorem urlDecodeAt_escape {srcLen i : Nat} {c : Byte} {src : List Byte} (tail : List Byte)
    (hlen : i + (src.length + 1) = srcLen) :
    ((i : Int) < srcLen - 2 ∧ c = PERCENT ∧ isxdigit (deref (src ++ tail)) = true ∧
        isxdigit (deref (src ++ tail).tail) = true) ↔
      c = PERCENT ∧ ∃ a b rest, src = a :: b :: rest ∧ isxdigit a = true ∧ isxdigit b = true := by
  constructor
  · rintro ⟨hlt, hc, ha, hb⟩
    match src with
    | [] => simp at hlen; omega
    | [_] => simp at hlen; omega
    | a :: b :: rest => exact ⟨hc, a, b, rest, rfl, ha, hb⟩
  · rintro ⟨hc, a, b, rest, rfl, ha, hb⟩
    rw [List.length_cons, List.length_cons] at hlen
    exact ⟨by omega, hc, ha, hb⟩

/-- The decoder writes what it makes of the text, in place or to a separate destination. -/
theorem urlDecodeAt_eq (isForm : Bool) (src srcLen dst dstLen n i j : Nat) (mem text : List Byte)
    (htext : text <+: mem.drop (src + i)) (hlen : i + text.length = srcLen) (hj : j < dstLen)
    (hn : text.length < n) (hsep : dst + j ≤ src + i ∨ src + srcLen ≤ dst + j) :
    urlDecodeAt isForm src srcLen dst dstLen n i j mem =
      (((urlDecodeLoop isForm (dstLen - 1 - j) text).map fun d => ((j + d.length : Nat) : Int)).getD (-1),
        Memory.store mem (dst + j) (urlDecodeStored isForm (dstLen - 1 - j) text)) := by
  induction n generalizing i j mem text with
  | zero => exact absurd hn (Nat.not_lt_zero _)
  | succ n ih =>
    rw [urlDecodeAt]
    cases text with
    | nil =>
      have hend : (srcLen : Int) ≤ i := by simp at hlen; omega
      have hloop : urlDecodeLoop isForm (dstLen - 1 - j) [] = some [] := by
        cases dstLen - 1 - j <;> rfl
      rw [if_neg (fun h => absurd h.1 (by omega)), if_pos hend, hloop, urlDecodeStored_nil]
      rfl
    | cons c text =>
      rw [List.length_cons] at hlen hn
      by_cases hroom : j + 1 < dstLen
      · obtain ⟨tail, htail⟩ := htext
        obtain ⟨k, hk⟩ : ∃ k, dstLen - 1 - j = k + 1 := ⟨dstLen - 1 - j - 1, by omega⟩
        have hk' : dstLen - 1 - (j + 1) = k := by omega
        have hnext : mem.drop (src + i + 1) = text ++ tail := by
          rw [← List.drop_drop, ← htail]
          rfl
        have hsecond : mem.drop (src + i + 2) = (text ++ tail).tail := by
          rw [← List.drop_one, ← hnext, List.drop_drop]
        -- one byte is written, and the rest of the text is still behind it
        have hstep (d : Byte) (i' : Nat) (rest : List Byte) (hi : i < i') (hrest : rest <+: mem.drop (src + i'))
            (hlen' : i' + rest.length = srcLen) :
            urlDecodeAt isForm src srcLen dst dstLen n i' (j + 1) (mem.set (dst + j) d) =
              ((((urlDecodeLoop isForm k rest).map (d :: ·)).map fun d => ((j + d.length : Nat) : Int)).getD (-1),
                Memory.store mem (dst + j) (d :: urlDecodeStored isForm k rest)) := by
          have hkept := Memory.prefix_drop_set (q := dst + j) d hrest (by omega)
          have hih := ih i' (j + 1) (mem.set (dst + j) d) rest hkept hlen' hroom (by omega) (by omega)
          have hcount : ((fun d : List Byte => ((j + d.length : Nat) : Int)) ∘ (d :: ·)) =
              fun d => ((j + 1 + d.length : Nat) : Int) := by
            funext e
            rw [Function.comp_apply, List.length_cons]
            omega
          rw [hih, hk', Option.map_map, hcount]
          rfl
        rw [if_pos ⟨by omega, by omega⟩, ← htail, hnext, hsecond, List.cons_append, deref_cons, hk]
        dsimp only
        by_cases hesc : c = PERCENT ∧ ∃ a b rest, text = a :: b :: rest ∧ isxdigit a = true ∧ isxdigit b = true
        · rw [if_pos ((urlDecodeAt_escape tail hlen).mpr hesc)]
          obtain ⟨rfl, a, b, rest, rfl, ha, hb⟩ := hesc
          rw [List.length_cons, List.length_cons] at hlen
          have hrest : rest <+: mem.drop (src + (i + 3)) := by
            have hdrop : mem.drop (src + (i + 3)) = (mem.drop (src + i + 1)).drop 2 := by
              rw [List.drop_drop]
              rfl
            rw [hdrop, hnext]
            exact List.prefix_append rest tail
          rw [urlDecodeLoop, if_pos ⟨rfl, ha, hb⟩, urlDecodeStored_escape isForm k a b rest ha hb]
          exact hstep (hexByte a b) (i + 3) rest (by omega) hrest (by omega)
        · rw [if_neg (fun h => hesc ((urlDecodeAt_escape tail hlen).mp h)), urlDecodeLoop_copy isForm k c text hesc]
          cases hd : decodeByte isForm c with
          | none =>
            rw [urlDecodeStored_invalid isForm k c text hesc hd]
            rfl
          | some d =>
            have hrest : text <+: mem.drop (src + (i + 1)) := by
              rw [← Nat.add_assoc, hnext]
              exact List.prefix_append text tail
            rw [urlDecodeStored_copy isForm k c d text hesc hd, Option.bind_some]
            exact hstep d (i + 1) text (by omega) hrest (by omega)
      · have hfull : dstLen - 1 - j = 0 := by omega
        rw [if_neg (fun h => hroom (by omega)), if_neg (by omega : ¬ (srcLen : Int) ≤ i), hfull, urlDecodeStored_full]
        rfl

/-- `mg_url_decode` of a text, in place or to a separate destination. -/
theorem mgUrlDecodeTo_eq (isForm : Bool) (mem text : List Byte) (src dst dstLen : Nat)
    (htext : text <+: mem.drop src) (hdst : 1 ≤ dstLen) (hsep : dst ≤ src ∨ src + text.length ≤ dst) :
    mgUrlDecodeTo isForm mem src text.length dst dstLen =
      (((mgUrlDecode text dstLen isForm).map fun d => (d.length : Int)).getD (-1),
        Memory.store mem dst (urlDecodeStored isForm (dstLen - 1) text)) := by
  have h := urlDecodeAt_eq isForm src text.length dst dstLen (text.length + 1) 0 0 mem text htext (Nat.zero_add _)
    hdst (Nat.lt_succ_self _) hsep
  have hcount : (fun d : List Byte => ((0 + d.length : Nat) : Int)) = fun d => (d.length : Int) := by
    funext d
    rw [Nat.zero_add]
  rw [hcount] at h
  exact h

theorem urlDecodeWritten_length (isForm : Bool) (room : Nat) (text : List Byte) :
    (urlDecodeWritten isForm room text).length ≤ room := by
  induction room generalizing text with
  | zero => cases text <;> exact Nat.le_refl 0
  | succ room ih =>
    cases text with
    | nil => exact Nat.zero_le _
    | cons c src =>
      by_cases hesc : c = PERCENT ∧ ∃ a b rest, src = a :: b :: rest ∧ isxdigit a ∧ isxdigit b
      · obtain ⟨rfl, a, b, rest, rfl, ha, hb⟩ := hesc
        rw [urlDecodeWritten, if_pos ⟨rfl, ha, hb⟩]
        exact Nat.succ_le_succ (ih rest)
      · rw [urlDecodeWritten_copy isForm room c src hesc]
        cases decodeByte isForm c with
        | none => exact Nat.zero_le _
        | some d => exact Nat.succ_le_succ (ih src)

theorem urlDecodeStored_length (isForm : Bool) (room : Nat) (text : List Byte) :
    (urlDecodeStored isForm room text).length ≤ room + 1 := by
  have hlen := urlDecodeWritten_length isForm room text
  unfold urlDecodeStored
  dsimp only
  split
  · omega
  · rw [List.length_append, List.length_singleton]
    omega

theorem urlDecodeStored_of_some (isForm : Bool) (room : Nat) (text decoded : List Byte)
    (h : urlDecodeLoop isForm room text = some decoded) : urlDecodeStored isForm room text = decoded ++ [NUL] := by
  induction room generalizing text decoded with
  | zero =>
    cases text with
    | nil =>
      obtain rfl := Option.some.inj h
      rfl
    | cons c src => exact absurd h nofun
  | succ room ih =>
    cases text with
    | nil =>
      obtain rfl := Option.some.inj h
      rfl
    | cons c src =>
      by_cases hesc : c = PERCENT ∧ ∃ a b rest, src = a :: b :: rest ∧ isxdigit a ∧ isxdigit b
      · obtain ⟨rfl, a, b, rest, rfl, ha, hb⟩ := hesc
        rw [urlDecodeLoop, if_pos ⟨rfl, ha, hb⟩] at h
        obtain ⟨d, hd, rfl⟩ := Option.map_eq_some_iff.mp h
        rw [urlDecodeStored_escape isForm room a b rest ha hb, ih rest d hd]
        rfl
      · rw [urlDecodeLoop_copy isForm room c src hesc] at h
        obtain ⟨e, he, h⟩ := Option.bind_eq_some_iff.mp h
        obtain ⟨d, hd, rfl⟩ := Option.map_eq_some_iff.mp h
        rw [urlDecodeStored_copy isForm room c e src hesc he, ih src d hd]
        rfl

/-! ### Encoded and decoded again -/

/-- The decoder reads every encoding, if it has room for the text. -/
theorem urlDecodeLoop_mgUrlEncode (isForm : Bool) (room : Nat) (s : List Byte) :
    urlDecodeLoop isForm room (mgUrlEncode s) = if s.length ≤ room then some s else none := by
  induction s generalizing room with
  | nil => cases room <;> rfl
  | cons c s ih =>
    have hfull : urlDecodeLoop isForm 0 (mgUrlEncode (c :: s)) = none := by
      rw [mgUrlEncode_cons]
      cases hc : unreserved c with
      | true =>
        rw [urlEncodeByte_kept hc]
        rfl
      | false =>
        rw [urlEncodeByte_escaped hc]
        rfl
    cases room with
    | zero => rw [hfull, if_neg (by simp)]
    | succ room =>
      have hstep : urlDecodeLoop isForm (room + 1) (mgUrlEncode (c :: s)) =
          (urlDecodeLoop isForm room (mgUrlEncode s)).map (c :: ·) := by
        rw [mgUrlEncode_cons]
        cases hc : unreserved c with
        | true =>
          have hplain : ∀ c, unreserved c = true → c ≠ PERCENT ∧ literalByte c = true :=
            byte_all _ (by decide +kernel)
          rw [urlEncodeByte_kept hc, List.singleton_append,
            urlDecodeLoop_copy isForm room c _ (fun h => (hplain c hc).1 h.1),
            decodeByte_literal isForm c (hplain c hc).2, Option.bind_some]
        | false =>
          have hdigit : ∀ d, lowerHex d = true → isxdigit d = true := byte_all _ (by decide +kernel)
          obtain ⟨a, b, henc, ha, hb, hval⟩ := urlEncodeByte_hex hc
          rw [henc, List.cons_append, List.cons_append, List.singleton_append, urlDecodeLoop,
            if_pos ⟨rfl, hdigit a ha, hdigit b hb⟩, hval]
      rw [hstep, ih room, List.length_cons]
      by_cases hfit : s.length ≤ room
      · rw [if_pos hfit, if_pos (by omega), Option.map_some]
      · rw [if_neg hfit, if_neg (by omega), Option.map_none]

/-- `mg_url_encode` returns the length of the encoding as an `int` and writes the encoding if it fits, else it
returns -1 and writes a part of it. An encoding that an `int` counts is decoded to the text by `mg_url_decode`
where that fits, and to nothing beyond its destination where it does not. -/
theorem urlEncode_inverse (s : List Byte) (hs : NUL ∉ s) (mem : List Byte) (dst n : Nat) (hn : 1 ≤ n) :
    EscapedText (mgUrlEncode s) ∧
      ((mgUrlEncode s).length ≤ n - 1 →
        mgUrlEncodeTo s mem dst n =
          (toInt32 ((mgUrlEncode s).length % 2 ^ 32), Memory.store mem dst (mgUrlEncode s ++ [NUL]))) ∧
      (n - 1 < (mgUrlEncode s).length →
        ∃ part, part <+: mgUrlEncode s ∧ part.length + 1 ≤ n ∧
          mgUrlEncodeTo s mem dst n = (-1, Memory.store mem dst (part ++ [NUL]))) ∧
      (mgUrlEncodeTo s mem dst n).2.take dst = mem.take dst ∧
      (mgUrlEncodeTo s mem dst n).2.drop (dst + n) = mem.drop (dst + n) ∧
      ((mgUrlEncode s).length ≤ n - 1 → (mgUrlEncode s).length ≤ INT_MAX →
        (mgUrlEncodeTo s mem dst n).1 = (mgUrlEncode s).length ∧
        ∀ (isForm : Bool) (mem' : List Byte) (src dst' n' : Nat),
          mgUrlEncode s <+: mem'.drop src → 1 ≤ n' →
          dst' + n' ≤ src ∨ src + (mgUrlEncode s).length ≤ dst' →
          let decoded := mgUrlDecodeTo isForm mem' src (mgUrlEncode s).length dst' n'
          (s.length + 1 ≤ n' → decoded = ((s.length : Int), Memory.store mem' dst' (s ++ [NUL]))) ∧
          (n' ≤ s.length → decoded.1 = -1) ∧
          decoded.2.take dst' = mem'.take dst' ∧ decoded.2.drop (dst' + n') = mem'.drop (dst' + n')) := by
  obtain ⟨done, rest, hsplit, hle, hrest, heq⟩ := mgUrlEncodeTo_eq s mem dst n hs
  have hfit (h : (mgUrlEncode s).length ≤ n - 1) : mgUrlEncodeTo s mem dst n =
      (toInt32 ((mgUrlEncode s).length % 2 ^ 32), Memory.store mem dst (mgUrlEncode s ++ [NUL])) := by
    have hnil := hrest.mpr h
    have hdone : s = done := by rw [hsplit, hnil, List.append_nil]
    rw [heq, if_pos hnil, ← hdone]
  refine ⟨escapedText_mgUrlEncode s, hfit, fun h => ?_, ?_, ?_, fun h hint => ⟨?_, ?_⟩⟩
  · have hne : rest ≠ [] := fun hnil => absurd (hrest.mp hnil) (by omega)
    refine ⟨mgUrlEncode done, ?_, by omega, by rw [heq, if_neg hne]⟩
    rw [hsplit, mgUrlEncode, mgUrlEncode, List.flatMap_append]
    exact List.prefix_append _ _
  · rw [heq]
    exact Memory.take_store mem dst _
  · rw [heq]
    apply Memory.drop_store
    rw [List.length_append, List.length_singleton]
    omega
  · have hmax : INT_MAX = 2 ^ 31 - 1 := rfl
    have hsmall : (mgUrlEncode s).length < 2 ^ 31 := by omega
    rw [hfit h, Nat.mod_eq_of_lt (by omega), toInt32, if_pos hsmall]
  · intro isForm mem' src dst' n' htext hn' hsep
    have hdec := mgUrlDecodeTo_eq isForm mem' (mgUrlEncode s) src dst' n' htext hn' (by omega)
    have hloop := urlDecodeLoop_mgUrlEncode isForm (n' - 1) s
    have hwithin := urlDecodeStored_length isForm (n' - 1) (mgUrlEncode s)
    rw [mgUrlDecode] at hdec
    dsimp only
    rw [hdec]
    refine ⟨fun hroom => ?_, fun hshort => ?_, Memory.take_store _ _ _, Memory.drop_store _ _ _ _ (by omega)⟩
    · rw [if_pos (by omega)] at hloop
      rw [urlDecodeStored_of_some isForm (n' - 1) (mgUrlEncode s) s hloop, hloop]
      rfl
    · rw [if_neg (by omega)] at hloop
      rw [hloop]
      rfl

/-- A text that needs no escape. -/
theorem mgUrlEncode_replicate (n : Nat) : mgUrlEncode (List.replicate n 97) = List.replicate n 97 := by
  induction n with
  | zero => rfl
  | succ n ih =>
    have ha : urlEncodeByte 97 = [97] := by decide
    rw [List.replicate_succ, mgUrlEncode_cons, ih, ha]
    rfl

/-- An encoding of 2^31 bytes fits its buffer, and its length is not returned: it is no `int`. -/
theorem urlEncode_noInt :
    ¬ ∀ (s mem : List Byte) (n : Nat), NUL ∉ s → 1 ≤ n → n ≤ mem.length → (mgUrlEncode s).length ≤ n - 1 →
      (mgUrlEncodeTo s mem 0 n).1 = (mgUrlEncode s).length := by
  intro h
  obtain ⟨k, hk⟩ : ∃ k, k = 2 ^ 31 := ⟨2 ^ 31, rfl⟩
  have hnul : NUL ∉ List.replicate k (97 : Byte) := fun hmem => absurd (List.eq_of_mem_replicate hmem) (by decide)
  have hlen : (mgUrlEncode (List.replicate k 97)).length = k := by
    rw [mgUrlEncode_replicate, List.length_replicate]
  have hret := h (List.replicate k 97) (List.replicate (k + 1) NUL) (k + 1) hnul (by omega)
    (by rw [List.length_replicate]) (by omega)
  obtain ⟨done, rest, -, -, hrest, heq⟩ :=
    mgUrlEncodeTo_eq (List.replicate k 97) (List.replicate (k + 1) NUL) 0 (k + 1) hnul
  rw [heq, if_pos (hrest.mpr (by omega)), hlen, hk] at hret
  have hwrap : toInt32 (2 ^ 31 % 2 ^ 32) = ((2 ^ 31 : Nat) : Int) := hret
  exact absurd hwrap (by decide)

theorem urlEncode_inverse_blank :
    mgUrlEncodeTo (ascii "a b") (List.replicate 9 7) 1 6 = (5, [7] ++ ascii "a%20b" ++ [NUL, 7, 7]) ∧
      mgUrlDecodeTo true (ascii "a%20b" ++ List.replicate 5 7) 0 5 6 4 =
        (3, ascii "a%20b" ++ [7] ++ ascii "a b" ++ [NUL]) := by
  have h := urlEncode_inverse (ascii "a b") (by decide) (List.replicate 9 7) 1 6 (by decide)
  have henc := h.2.1 (by decide)
  have hdec := (h.2.2.2.2.2 (by decide) (by decide)).2 true (ascii "a%20b" ++ List.replicate 5 7) 0 6 4
    (by decide) (by decide) (by decide)
  exact ⟨henc.trans (by decide), (hdec.1 (by decide)).trans (by decide)⟩

end CivetWeb
