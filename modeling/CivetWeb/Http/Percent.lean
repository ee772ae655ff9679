import CivetWeb.Dav.RequestLink
import CivetWeb.Form.UrlDecode
import CivetWeb.Http.Uri
import CivetWeb.Match.Match

namespace CivetWeb

/-! ### Escapes of a URI, decoded once -/

/-- A text with its escapes decoded; what is no escape stands for itself. -/
def percentDecode : List Byte → List Byte
  | [] => []
  | [c] => [c]
  | [c, a] => [c, a]
  | c :: a :: b :: rest =>
    if c = PERCENT ∧ isxdigit a ∧ isxdigit b then hexByte a b :: percentDecode rest
    else c :: percentDecode (a :: b :: rest)

/-- Somewhere in the text there is an escape. -/
def HasEscape (s : List Byte) : Prop :=
  ∃ u a b t, s = u ++ PERCENT :: a :: b :: t ∧ isxdigit a = true ∧ isxdigit b = true

theorem percentDecode_escape (a b : Byte) (rest : List Byte) (ha : isxdigit a = true) (hb : isxdigit b = true) :
    percentDecode (PERCENT :: a :: b :: rest) = hexByte a b :: percentDecode rest :=
  if_pos ⟨rfl, ha, hb⟩

theorem percentDecode_copy (c : Byte) (s : List Byte)
    (h : ¬ ∃ a b t, c :: s = PERCENT :: a :: b :: t ∧ isxdigit a = true ∧ isxdigit b = true) :
    percentDecode (c :: s) = c :: percentDecode s := by
  match s with
  | [] => rfl
  | [_] => rfl
  | a :: b :: t =>
    refine if_neg ?_
    rintro ⟨rfl, ha, hb⟩
    exact h ⟨a, b, t, rfl, ha, hb⟩

theorem percentDecode_literal {c : Byte} (hc : c ≠ PERCENT) (s : List Byte) :
    percentDecode (c :: s) = c :: percentDecode s := by
  apply percentDecode_copy
  rintro ⟨a, b, t, h, -⟩
  exact hc (List.cons.inj h).1

/-- An escape makes the text shorter. -/
theorem percentDecode_length (s : List Byte) :
    (percentDecode s).length ≤ s.length ∧ (HasEscape s → (percentDecode s).length < s.length) := by
  induction hn : s.length using Nat.strong_induction_on generalizing s with
  | _ n ih =>
    cases s with
    | nil =>
      refine ⟨Nat.zero_le _, fun h => ?_⟩
      obtain ⟨u, a, b, t, h, -⟩ := h
      simp at h
    | cons c s =>
      rw [List.length_cons] at hn
      by_cases hesc : ∃ a b t, c :: s = PERCENT :: a :: b :: t ∧ isxdigit a = true ∧ isxdigit b = true
      · obtain ⟨a, b, t, heq, ha, hb⟩ := hesc
        have hlen : s.length = t.length + 2 := congrArg List.length (List.cons.inj heq).2
        have hrest := (ih t.length (by omega) t rfl).1
        rw [heq, percentDecode_escape a b t ha hb, List.length_cons]
        omega
      · have hrest := ih s.length (by omega) s rfl
        rw [percentDecode_copy c s hesc, List.length_cons]
        refine ⟨by omega, fun h => ?_⟩
        obtain ⟨u, a, b, t, heq, ha, hb⟩ := h
        cases u with
        | nil => exact absurd ⟨a, b, t, heq, ha, hb⟩ hesc
        | cons d u =>
          have := hrest.2 ⟨u, a, b, t, (List.cons.inj heq).2, ha, hb⟩
          omega

/-- Decoding changes a text exactly where it has an escape. -/
theorem percentDecode_eq_self (s : List Byte) : percentDecode s = s ↔ ¬ HasEscape s := by
  constructor
  · intro h hesc
    have := (percentDecode_length s).2 hesc
    rw [h] at this
    omega
  · intro h
    induction s with
    | nil => rfl
    | cons c s ih =>
      have hcopy : ¬ ∃ a b t, c :: s = PERCENT :: a :: b :: t ∧ isxdigit a = true ∧ isxdigit b = true :=
        fun ⟨a, b, t, heq, ha, hb⟩ => h ⟨[], a, b, t, heq, ha, hb⟩
      have hrest : ¬ HasEscape s := fun ⟨u, a, b, t, heq, ha, hb⟩ => h ⟨c :: u, a, b, t, by rw [heq]; rfl, ha, hb⟩
      rw [percentDecode_copy c s hcopy, ih hrest]

/-- `mg_url_decode` of a whole text without blanks or control characters. -/
theorem mgUrlDecode_percentDecode (s : List Byte) (hs : ∀ c ∈ s, SP < c) :
    mgUrlDecode s (s.length + 1) false = some (percentDecode s) := by
  have hloop (room : Nat) (s : List Byte) (hs : ∀ c ∈ s, SP < c) (hroom : s.length ≤ room) :
      urlDecodeLoop false room s = some (percentDecode s) := by
    induction room generalizing s with
    | zero =>
      obtain rfl := List.eq_nil_of_length_eq_zero (Nat.le_zero.mp hroom)
      rfl
    | succ room ih =>
      cases s with
      | nil => rfl
      | cons c s =>
        rw [List.length_cons] at hroom
        by_cases hesc : ∃ a b t, c :: s = PERCENT :: a :: b :: t ∧ isxdigit a = true ∧ isxdigit b = true
        · obtain ⟨a, b, t, heq, ha, hb⟩ := hesc
          obtain ⟨rfl, rfl⟩ := List.cons.inj heq
          rw [percentDecode_escape a b t ha hb, urlDecodeLoop, if_pos ⟨rfl, ha, hb⟩,
            ih t (fun d hd => hs d (by simp [hd])) (by simp at hroom; omega), Option.map_some]
        · have hc : decodeByte false c = some c :=
            (if_neg Bool.false_ne_true).trans (if_neg (UInt8.not_le.mpr (hs c List.mem_cons_self)))
          rw [percentDecode_copy c s hesc, urlDecodeLoop_copy false room c s, hc, Option.bind_some,
            ih s (fun d hd => hs d (List.mem_cons_of_mem c hd)) (by omega), Option.map_some]
          rintro ⟨rfl, a, b, t, rfl, ha, hb⟩
          exact hesc ⟨a, b, t, rfl, ha, hb⟩
  exact hloop s.length s hs (le_refl _)

/-! ### The path of a local link -/

/-- A character that a link keeps as it is. -/
def keptByte (c : Byte) : Bool := isalnum c || (ascii "._-$,;~()").contains c || c == SLASH

/-- The text of a path in a link. -/
def linkPath (uri : List Byte) : List Byte := restoreSlashes (mgUrlEncode uri)

/-- The number of bytes that a path takes in a link. -/
def linkPathLength (uri : List Byte) : Nat := (uri.map fun c => if keptByte c then 1 else 3).sum

/-- A link keeps a slash and what `mg_url_encode` keeps, and it has an escape for every other character. -/
theorem keptByte_encode : ∀ c,
    (keptByte c = true → c ≠ PERCENT ∧ (c = SLASH ∨ urlEncodeByte c = [c])) ∧
      (keptByte c = false → urlEncodeByte c = [PERCENT, (urlEncodeByte c).getD 1 0, (urlEncodeByte c).getD 2 0] ∧
        isxdigit ((urlEncodeByte c).getD 1 0) = true ∧ isxdigit ((urlEncodeByte c).getD 2 0) = true ∧
        hexByte ((urlEncodeByte c).getD 1 0) ((urlEncodeByte c).getD 2 0) = c) ∧
      (isxdigit c = true → c ≠ PERCENT ∧ keptByte c = true) :=
  byte_all _ (by decide +kernel)

/-- What does not begin with the escape of a slash is copied. -/
theorem restoreSlashes_copy (c : Byte) (s : List Byte) (h : ¬ ∃ t, c = PERCENT ∧ s = 50 :: 102 :: t) :
    restoreSlashes (c :: s) = c :: restoreSlashes s := by
  rw [restoreSlashes]
  intro t hc hs
  exact h ⟨t, hc, hs⟩

theorem restoreSlashes_literal {c : Byte} (hc : c ≠ PERCENT) (s : List Byte) :
    restoreSlashes (c :: s) = c :: restoreSlashes s :=
  restoreSlashes_copy c s fun ⟨_, h, _⟩ => hc h

theorem linkPath_kept {c : Byte} (hc : keptByte c = true) (uri : List Byte) :
    c ≠ PERCENT ∧ linkPath (c :: uri) = c :: linkPath uri := by
  have hslash : urlEncodeByte SLASH = [PERCENT, 50, 102] := by decide
  obtain ⟨hne, rfl | hself⟩ := (keptByte_encode c).1 hc
  · refine ⟨hne, ?_⟩
    rw [linkPath, mgUrlEncode, List.flatMap_cons, hslash]
    rfl
  · refine ⟨hne, ?_⟩
    rw [linkPath, mgUrlEncode, List.flatMap_cons, hself, List.singleton_append, restoreSlashes_literal hne]
    rfl

theorem linkPath_escaped {c : Byte} (hc : keptByte c = false) (uri : List Byte) :
    ∃ a b, linkPath (c :: uri) = PERCENT :: a :: b :: linkPath uri ∧ isxdigit a = true ∧ isxdigit b = true ∧
      hexByte a b = c := by
  obtain ⟨a, b, henc, ha, hb, hval⟩ : ∃ a b : Byte, urlEncodeByte c = [PERCENT, a, b] ∧
      isxdigit a = true ∧ isxdigit b = true ∧ hexByte a b = c := ⟨_, _, (keptByte_encode c).2.1 hc⟩
  have hdigit : ∀ d, isxdigit d = true → d ≠ PERCENT := fun d hd => ((keptByte_encode d).2.2 hd).1
  have hslash : ¬ (a = 50 ∧ b = 102) := by
    rintro ⟨rfl, rfl⟩
    rw [← hval] at hc
    exact absurd hc (by decide)
  refine ⟨a, b, ?_, ha, hb, hval⟩
  rw [linkPath, mgUrlEncode, List.flatMap_cons, henc, List.cons_append, List.cons_append, List.singleton_append,
    restoreSlashes_copy, restoreSlashes_literal (hdigit a ha), restoreSlashes_literal (hdigit b hb)]
  · rfl
  · rintro ⟨t, -, h⟩
    exact hslash ⟨(List.cons.inj h).1, (List.cons.inj (List.cons.inj h).2).1⟩

/-- A path in a link is decoded to the text that it was made of. -/
theorem percentDecode_linkPath (uri : List Byte) : percentDecode (linkPath uri) = uri := by
  induction uri with
  | nil => rfl
  | cons c uri ih =>
    cases hc : keptByte c with
    | true =>
      obtain ⟨hne, hpath⟩ := linkPath_kept hc uri
      rw [hpath, percentDecode_literal hne, ih]
    | false =>
      obtain ⟨a, b, hpath, ha, hb, hval⟩ := linkPath_escaped hc uri
      rw [hpath, percentDecode_escape a b _ ha hb, ih, hval]

theorem linkPath_length (uri : List Byte) : (linkPath uri).length = linkPathLength uri := by
  induction uri with
  | nil => rfl
  | cons c uri ih =>
    rw [linkPathLength, List.map_cons, List.sum_cons, ← linkPathLength]
    cases hc : keptByte c with
    | true =>
      rw [(linkPath_kept hc uri).2, List.length_cons, ih, if_pos rfl]
      omega
    | false =>
      obtain ⟨a, b, hpath, -⟩ := linkPath_escaped hc uri
      rw [hpath, List.length_cons, List.length_cons, List.length_cons, ih, if_neg (by decide)]
      omega

theorem linkPath_bytes (uri : List Byte) : ∀ c ∈ linkPath uri, keptByte c = true ∨ c = PERCENT := by
  have hdigit : ∀ d, isxdigit d = true → keptByte d = true := fun d hd => ((keptByte_encode d).2.2 hd).2
  induction uri with
  | nil => exact fun c hc => absurd hc List.not_mem_nil
  | cons c uri ih =>
    cases hc : keptByte c with
    | true =>
      rw [(linkPath_kept hc uri).2]
      exact List.forall_mem_cons.mpr ⟨.inl hc, ih⟩
    | false =>
      obtain ⟨a, b, hpath, ha, hb, -⟩ := linkPath_escaped hc uri
      rw [hpath]
      exact List.forall_mem_cons.mpr ⟨.inr rfl, List.forall_mem_cons.mpr ⟨.inl (hdigit a ha),
        List.forall_mem_cons.mpr ⟨.inl (hdigit b hb), ih⟩⟩⟩

theorem linkPath_plain (uri : List Byte) : NUL ∉ linkPath uri ∧ Match.QUESTION ∉ linkPath uri :=
  ⟨fun h => absurd (linkPath_bytes uri _ h) (by decide), fun h => absurd (linkPath_bytes uri _ h) (by decide)⟩

theorem linkPath_head (uri : List Byte) : (linkPath uri).head? = some SLASH ↔ uri.head? = some SLASH := by
  cases uri with
  | nil => rfl
  | cons c uri =>
    cases hc : keptByte c with
    | true => rw [(linkPath_kept hc uri).2, List.head?_cons, List.head?_cons]
    | false =>
      obtain ⟨a, b, hpath, -⟩ := linkPath_escaped hc uri
      have hne : c ≠ SLASH := by
        rintro rfl
        exact absurd hc (by decide)
      rw [hpath, List.head?_cons, List.head?_cons, Option.some.injEq, Option.some.injEq]
      exact ⟨fun h => absurd h (by decide), fun h => absurd h hne⟩

end CivetWeb
