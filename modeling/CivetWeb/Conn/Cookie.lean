import CivetWeb.Conn.HeaderOptions
import CivetWeb.Conn.Write
import CivetWeb.Form.UrlEncoded
import CivetWeb.Http.ChunkedBody
import CivetWeb.Lib.Memory

namespace CivetWeb

/-- The loop of `mg_strcasestr` for the `n` positions from `i` on. -/
def strcasestrLoop (bigStr smallStr : List Byte) : Nat → Nat → Option Nat
  | 0, _ => none
  | n + 1, i =>
    if mgStrncasecmp (bigStr.drop i) smallStr smallStr.length = 0 then some i
    else strcasestrLoop bigStr smallStr n (i + 1)

/-- `mg_strcasestr`: the offset of what it finds. -/
def mgStrcasestrAt (bigStr smallStr : List Byte) : Option Nat :=
  if smallStr.length ≤ bigStr.length then
    strcasestrLoop bigStr smallStr (bigStr.length - smallStr.length + 1) 0
  else none

/-- What a turn of the search in `mg_get_cookie` comes to; `outside` is a read in front of the header. -/
inductive CookieTurn
  | notFound
  | value (s : Nat)
  | next (s : Nat)
  | outside
  deriving DecidableEq, Repr

/-- `name_len` of `mg_get_cookie`. -/
def nameLen (varName : List Byte) : Int := toInt32 (varName.length % 2 ^ 32)

/-- A turn of the search from `s` on. -/
def cookieTurn (cookieHeader varName : List Byte) (s : Nat) : CookieTurn :=
  match mgStrcasestrAt (cookieHeader.drop s) varName with
  | none => .notFound
  | some k =>
    let s := s + k
    let behind := s + nameLen varName
    if behind < 0 then .outside
    else if deref (cookieHeader.drop behind.toNat) = EQUALS ∧ (s = 0 ∨ deref (cookieHeader.drop (s - 1)) = SP) then
      .value (behind.toNat + 1)
    else .next behind.toNat

/-- The search, for as many turns as are given: where the value starts, if there is one. -/
def cookieLoop (cookieHeader varName : List Byte) : Nat → Nat → Option (Option Nat)
  | 0, _ => none
  | n + 1, s =>
    match cookieTurn cookieHeader varName s with
    | .notFound => some none
    | .value s => some (some s)
    | .next s => cookieLoop cookieHeader varName n s
    | .outside => none

/-- The value at `s` as `mg_get_cookie` returns it. -/
def cookieValue (cookieHeader : List Byte) (s : Nat) (dst : List Byte) (dstSize : Nat) : Int × List Byte :=
  let p := s + ((cookieHeader.drop s).takeWhile (· != SP)).length
  let p := if deref (cookieHeader.drop (p - 1)) = SEMICOLON then p - 1 else p
  let quoted := deref (cookieHeader.drop s) = QUOTE ∧ deref (cookieHeader.drop (p - 1)) = QUOTE ∧ s + 1 < p
  let (s, p) := if quoted then (s + 1, p - 1) else (s, p)
  if p - s < dstSize then
    let len := toInt32 ((p - s) % 2 ^ 32)
    (len, Memory.store dst 0 (mgStrlcpy (cookieHeader.drop s) ((len + 1) % 2 ^ 64).toNat ++ [NUL]))
  else (-3, dst)

/-- `mg_get_cookie`: its result and `dst`, if that many turns of the search are enough. -/
def mgGetCookie (turns : Nat) (cookieHeader varName dst : Option (List Byte)) (dstSize : Nat) :
    Option (Int × List Byte) :=
  match dst with
  | none => some (-2, [])
  | some dst =>
    if dstSize = 0 then some (-2, dst)
    else
      match varName, cookieHeader with
      | some varName, some cookieHeader =>
        match cookieLoop cookieHeader varName turns 0 with
        | none => none
        | some none => some (-1, dst.set 0 NUL)
        | some (some s) => some (cookieValue cookieHeader s (dst.set 0 NUL) dstSize)
      | _, _ => some (-1, dst.set 0 NUL)

/-! ### `mg_strcasestr` -/

theorem mgStrncasecmp_drop (bigStr smallStr : List Byte) (hsmall : NUL ∉ smallStr) (i : Nat) :
    mgStrncasecmp (bigStr.drop i) smallStr smallStr.length = 0 ↔
      smallStr.map tolower <+: (bigStr.map tolower).drop i := by
  rw [mgStrncasecmp_comm, mgStrncasecmp_eq_zero smallStr (bigStr.drop i) hsmall, List.map_drop]

theorem strcasestrLoop_eq (bigStr smallStr : List Byte) (hsmall : NUL ∉ smallStr) (n i : Nat)
    (hn : i + n = bigStr.length - smallStr.length + 1)
    (hbefore : ∀ j < i, ¬ smallStr.map tolower <+: (bigStr.map tolower).drop j)
    (hlen : smallStr.length ≤ bigStr.length) :
    strcasestrLoop bigStr smallStr n i = Scan.find (smallStr.map tolower) (bigStr.map tolower) := by
  induction n generalizing i with
  | zero =>
    rw [strcasestrLoop]
    cases hfind : Scan.find (smallStr.map tolower) (bigStr.map tolower) with
    | none => rfl
    | some k =>
      have hle := Scan.find_le _ _ k hfind
      rw [List.length_map, List.length_map] at hle
      exact absurd (Scan.find_some_at _ _ k hfind) (hbefore k (by omega))
  | succ n ih =>
    rw [strcasestrLoop]
    by_cases hhit : smallStr.map tolower <+: (bigStr.map tolower).drop i
    · rw [if_pos ((mgStrncasecmp_drop bigStr smallStr hsmall i).mpr hhit), Scan.find_eq_some _ _ i hhit hbefore]
    · rw [if_neg (fun h => hhit ((mgStrncasecmp_drop bigStr smallStr hsmall i).mp h))]
      refine ih (i + 1) (by omega) fun j hj => ?_
      rcases Nat.lt_succ_iff_lt_or_eq.mp hj with hj | rfl
      · exact hbefore j hj
      · exact hhit

/-- `mg_strcasestr` finds the first occurrence in lower case. -/
theorem mgStrcasestrAt_eq (bigStr smallStr : List Byte) (hsmall : NUL ∉ smallStr) :
    mgStrcasestrAt bigStr smallStr = Scan.find (smallStr.map tolower) (bigStr.map tolower) := by
  unfold mgStrcasestrAt
  by_cases hlen : smallStr.length ≤ bigStr.length
  · rw [if_pos hlen]
    exact strcasestrLoop_eq bigStr smallStr hsmall _ 0 (Nat.zero_add _) (fun j hj => absurd hj (Nat.not_lt_zero j)) hlen
  · rw [if_neg hlen]
    cases hfind : Scan.find (smallStr.map tolower) (bigStr.map tolower) with
    | none => rfl
    | some k =>
      have hle := Scan.find_le _ _ k hfind
      rw [List.length_map, List.length_map] at hle
      exact absurd hle (by omega)

/-- What `mg_strcasestr` finds behind `s` is the first occurrence from `s` on. -/
theorem mgStrcasestrAt_drop (bigStr smallStr : List Byte) (hsmall : NUL ∉ smallStr) (s : Nat) :
    (mgStrcasestrAt (bigStr.drop s) smallStr = none →
      ∀ j, s ≤ j → ¬ smallStr.map tolower <+: (bigStr.map tolower).drop j) ∧
    ∀ k, mgStrcasestrAt (bigStr.drop s) smallStr = some k ↔
      smallStr.map tolower <+: (bigStr.map tolower).drop (s + k) ∧
        ∀ j, s ≤ j → j < s + k → ¬ smallStr.map tolower <+: (bigStr.map tolower).drop j := by
  have hdrop (j : Nat) : ((bigStr.drop s).map tolower).drop j = (bigStr.map tolower).drop (s + j) := by
    rw [List.map_drop, List.drop_drop]
  rw [mgStrcasestrAt_eq _ _ hsmall]
  refine ⟨fun h j hj => ?_, fun k => ⟨fun h => ⟨?_, fun j hj hk => ?_⟩, fun h => ?_⟩⟩
  · have := Scan.find_none _ _ h (j - s)
    rwa [hdrop, Nat.add_sub_of_le hj] at this
  · have := Scan.find_some_at _ _ k h
    rwa [hdrop] at this
  · have := Scan.find_some_first _ _ k h (j - s) (by omega)
    rwa [hdrop, Nat.add_sub_of_le hj] at this
  · refine Scan.find_eq_some _ _ k (by rw [hdrop]; exact h.1) fun j hj => ?_
    rw [hdrop]
    exact h.2 (s + j) (by omega) (by omega)

/-! ### The end of the search -/

theorem nameLen_le (varName : List Byte) : nameLen varName ≤ varName.length := by
  have hmod := Nat.mod_le varName.length (2 ^ 32)
  have hlt := Nat.mod_lt varName.length (show 0 < 2 ^ 32 by decide)
  rw [nameLen, toInt32]
  split <;> omega

theorem nameLen_short {varName : List Byte} (h : varName.length < 2 ^ 31) : nameLen varName = varName.length := by
  rw [nameLen, Nat.mod_eq_of_lt (by omega), toInt32, if_pos h]

/-- The tests of a turn that has found the name at `s`. -/
def TakesCookie (cookieHeader varName : List Byte) (s : Nat) : Prop :=
  0 ≤ s + nameLen varName ∧ deref (cookieHeader.drop (s + nameLen varName).toNat) = EQUALS ∧
    (s = 0 ∨ deref (cookieHeader.drop (s - 1)) = SP)

instance (cookieHeader varName : List Byte) (s : Nat) : Decidable (TakesCookie cookieHeader varName s) :=
  inferInstanceAs (Decidable (_ ∧ _ ∧ _))

/-- The search comes to an end: it gets on, there is nothing to find, or what it finds first is taken. -/
def SearchEnds (cookieHeader varName : List Byte) : Prop :=
  0 < nameLen varName ∨ mgStrcasestrAt cookieHeader varName = none ∨
    ∃ s ∈ mgStrcasestrAt cookieHeader varName, TakesCookie cookieHeader varName s

section
variable {cookieHeader varName : List Byte}

theorem cookieTurn_some {s k : Nat} (hk : mgStrcasestrAt (cookieHeader.drop s) varName = some k) :
    (TakesCookie cookieHeader varName (s + k) ∧
      cookieTurn cookieHeader varName s = .value ((s + k + nameLen varName).toNat + 1)) ∨
    (¬ TakesCookie cookieHeader varName (s + k) ∧ 0 ≤ (s + k : Nat) + nameLen varName ∧
      cookieTurn cookieHeader varName s = .next (s + k + nameLen varName).toNat) ∨
    ¬ TakesCookie cookieHeader varName (s + k) ∧ (s + k : Nat) + nameLen varName < 0 ∧
      cookieTurn cookieHeader varName s = .outside := by
  have hcast : ((s + k : Nat) : Int) + nameLen varName = s + k + nameLen varName := by
    rw [Nat.cast_add]
  unfold cookieTurn TakesCookie
  rw [hk]
  dsimp only
  rw [hcast]
  by_cases hout : (s + k + nameLen varName : Int) < 0
  · rw [if_pos hout]
    exact .inr (.inr ⟨fun h => absurd h.1 hout.not_ge, hout, rfl⟩)
  · rw [if_neg hout]
    by_cases htake : deref (cookieHeader.drop (s + k + nameLen varName).toNat) = EQUALS ∧
        (s + k = 0 ∨ deref (cookieHeader.drop (s + k - 1)) = SP)
    · rw [if_pos htake]
      exact .inl ⟨⟨not_lt.mp hout, htake⟩, rfl⟩
    · rw [if_neg htake]
      exact .inr (.inl ⟨fun h => htake h.2, not_lt.mp hout, rfl⟩)

theorem mgStrcasestrAt_le {bigStr : List Byte} {k : Nat} (hvar : NUL ∉ varName)
    (h : mgStrcasestrAt bigStr varName = some k) : k + varName.length ≤ bigStr.length := by
  rw [mgStrcasestrAt_eq _ _ hvar] at h
  have hle := Scan.find_le _ _ k h
  rwa [List.length_map, List.length_map] at hle

/-- Each turn with a name of a positive length gets on, so the turns come to an end. -/
theorem cookieLoop_ends (hvar : NUL ∉ varName) (hpos : 0 < nameLen varName) (n s : Nat)
    (hs : s ≤ cookieHeader.length) (hn : cookieHeader.length < s + n) :
    cookieLoop cookieHeader varName n s ≠ none := by
  induction n generalizing s with
  | zero => omega
  | succ n ih =>
    rw [cookieLoop]
    cases hk : mgStrcasestrAt (cookieHeader.drop s) varName with
    | none =>
      have hturn : cookieTurn cookieHeader varName s = .notFound := by rw [cookieTurn, hk]
      rw [hturn]
      exact nofun
    | some k =>
      have hfit := mgStrcasestrAt_le hvar hk
      rw [List.length_drop] at hfit
      have hle := nameLen_le varName
      rcases cookieTurn_some hk with ⟨-, hturn⟩ | ⟨-, -, hturn⟩ | ⟨-, hout, -⟩
      · rw [hturn]
        exact nofun
      · rw [hturn]
        exact ih _ (by omega) (by omega)
      · omega

/-- A name that does not get the search on is found again where it was found. -/
theorem cookieLoop_stuck (hvar : NUL ∉ varName) (hlen : nameLen varName ≤ 0) {k : Nat}
    (hk : mgStrcasestrAt cookieHeader varName = some k) (htake : ¬ TakesCookie cookieHeader varName k) (n s : Nat)
    (hs : s ≤ k) : cookieLoop cookieHeader varName n s = none := by
  induction n generalizing s with
  | zero => rfl
  | succ n ih =>
    obtain ⟨hat, hfirst⟩ := ((mgStrcasestrAt_drop cookieHeader varName hvar 0).2 k).mp hk
    rw [Nat.zero_add] at hat hfirst
    have hagain : mgStrcasestrAt (cookieHeader.drop s) varName = some (k - s) := by
      rw [(mgStrcasestrAt_drop cookieHeader varName hvar s).2, Nat.add_sub_of_le hs]
      exact ⟨hat, fun j _ hj => hfirst j (Nat.zero_le j) hj⟩
    have hturn := cookieTurn_some hagain
    rw [Nat.add_sub_of_le hs] at hturn
    rw [cookieLoop]
    rcases hturn with ⟨h, -⟩ | ⟨-, hin, hturn⟩ | ⟨-, -, hturn⟩
    · exact absurd h htake
    · rw [hturn]
      exact ih _ (by omega)
    · rw [hturn]

end

/-- `mg_get_cookie` returns exactly where it does not search, or its search comes to an end. -/
theorem mgGetCookie_returns_iff (cookieHeader varName : List Byte) (hvar : NUL ∉ varName) (dst : Option (List Byte))
    (dstSize : Nat) :
    (∃ turns, mgGetCookie turns (some cookieHeader) (some varName) dst dstSize ≠ none) ↔
      dst = none ∨ dstSize = 0 ∨ SearchEnds cookieHeader varName := by
  cases dst with
  | none => exact iff_of_true ⟨0, nofun⟩ (.inl rfl)
  | some dst =>
    by_cases hsize : dstSize = 0
    · refine iff_of_true ⟨0, ?_⟩ (.inr (.inl hsize))
      rw [mgGetCookie, if_pos hsize]
      exact nofun
    · have hiff (turns : Nat) : mgGetCookie turns (some cookieHeader) (some varName) (some dst) dstSize ≠ none ↔
          cookieLoop cookieHeader varName turns 0 ≠ none := by
        rw [mgGetCookie, if_neg hsize]
        match cookieLoop cookieHeader varName turns 0 with
        | none => exact iff_of_false (fun h => h rfl) (fun h => h rfl)
        | some none => exact iff_of_true nofun nofun
        | some (some s) => exact iff_of_true nofun nofun
      simp only [hiff, reduceCtorEq, hsize, false_or]
      unfold SearchEnds
      by_cases hpos : 0 < nameLen varName
      · have hends : cookieLoop cookieHeader varName (cookieHeader.length + 1) 0 ≠ none :=
          cookieLoop_ends hvar hpos _ 0 (Nat.zero_le _) (by omega)
        exact iff_of_true ⟨cookieHeader.length + 1, hends⟩ (.inl hpos)
      · cases hk : mgStrcasestrAt cookieHeader varName with
        | none =>
          have hturn : cookieTurn cookieHeader varName 0 = .notFound := by
            rw [cookieTurn, List.drop_zero, hk]
          refine iff_of_true ⟨1, ?_⟩ (.inr (.inl rfl))
          rw [cookieLoop, hturn]
          exact nofun
        | some k =>
          by_cases htake : TakesCookie cookieHeader varName k
          · refine iff_of_true ⟨1, ?_⟩ (.inr (.inr ⟨k, rfl, htake⟩))
            have hzero : mgStrcasestrAt (cookieHeader.drop 0) varName = some k := hk
            have hturn := cookieTurn_some hzero
            rw [Nat.zero_add] at hturn
            rcases hturn with ⟨-, hturn⟩ | ⟨h, -⟩ | ⟨h, -⟩
            · rw [cookieLoop, hturn]
              exact nofun
            · exact absurd htake h
            · exact absurd htake h
          · have hstuck (turns : Nat) := cookieLoop_stuck hvar (not_lt.mp hpos) hk htake turns 0 (Nat.zero_le k)
            refine iff_of_false (fun ⟨turns, h⟩ => h (hstuck turns)) ?_
            rintro (h | h | ⟨s, hs, h⟩)
            · exact hpos h
            · exact absurd h nofun
            · obtain rfl := Option.some.inj hs
              exact htake h

/-- An empty name in any header that does not start with `=`: every turn is the first one again. -/
theorem mgGetCookie_hangs :
    ¬ ∃ turns, mgGetCookie turns (some (ascii "a=b")) (some []) (some [NUL]) 1 ≠ none := by
  have hfind : mgStrcasestrAt (ascii "a=b") [] = some 0 := by decide
  have hstuck (turns : Nat) : cookieLoop (ascii "a=b") [] turns 0 = none :=
    cookieLoop_stuck List.not_mem_nil (by decide) hfind (by decide) turns 0 (Nat.le_refl 0)
  rintro ⟨turns, h⟩
  rw [mgGetCookie, if_neg (by decide), hstuck turns] at h
  exact h rfl

theorem mgGetCookie_returns_iff_named :
    ∃ turns, mgGetCookie turns (some (ascii "a=b")) (some (ascii "x")) (some [NUL]) 1 ≠ none :=
  (mgGetCookie_returns_iff (ascii "a=b") (ascii "x") (by decide) (some [NUL]) 1).mpr (.inr (.inr (.inl (by decide))))

/-! ### The cookies of a header -/

/-- A cookie's name and value. -/
abbrev Cookie := List Byte × List Byte

/-- A name without the characters that end it, and a value that its blank or the header's end ends. -/
structure WellFormedCookie (c : Cookie) : Prop where
  name : NUL ∉ c.1 ∧ SP ∉ c.1 ∧ EQUALS ∉ c.1 ∧ SEMICOLON ∉ c.1
  value : NUL ∉ c.2 ∧ SP ∉ c.2 ∧ c.2.getLast? ≠ some SEMICOLON

/-- `name=value` with a semicolon and a blank between the cookies. -/
def cookieText : List Cookie → List Byte
  | [] => []
  | [c] => c.1 ++ EQUALS :: c.2
  | c :: d :: cs => c.1 ++ EQUALS :: (c.2 ++ SEMICOLON :: SP :: cookieText (d :: cs))

/-- What stands behind a cookie's value. -/
def cookieTail (cs : List Cookie) : List Byte := if cs = [] then [] else SEMICOLON :: SP :: cookieText cs

theorem cookieText_cons (c : Cookie) (cs : List Cookie) :
    cookieText (c :: cs) = c.1 ++ EQUALS :: (c.2 ++ cookieTail cs) := by
  cases cs with
  | nil => simp [cookieText, cookieTail]
  | cons d cs => simp [cookieText, cookieTail]

/-- The value without a pair of quotes around it. -/
def unquoted (v : List Byte) : List Byte :=
  if v.head? = some QUOTE ∧ v.getLast? = some QUOTE ∧ 2 ≤ v.length then v.tail.dropLast else v

/-- At `i` a cookie of that name starts: behind nothing or a blank, up to its `=`. -/
def CookieAt (cookieHeader varName : List Byte) (i : Nat) : Prop :=
  varName.map tolower <+: (cookieHeader.map tolower).drop i ∧ cookieHeader[i + varName.length]? = some EQUALS ∧
    (i = 0 ∨ cookieHeader[i - 1]? = some SP)

theorem deref_drop {s : List Byte} {i : Nat} {c : Byte} (hc : c ≠ NUL) : deref (s.drop i) = c ↔ s[i]? = some c := by
  rw [← Nat.add_zero i, ← List.getElem?_drop, Nat.add_zero]
  cases s.drop i with
  | nil => exact iff_of_false (fun h => hc h.symm) nofun
  | cons a t => exact ⟨congrArg some, Option.some.inj⟩

theorem takesCookie_iff {cookieHeader varName : List Byte} (hlen : varName.length < 2 ^ 31) (s : Nat) :
    TakesCookie cookieHeader varName s ↔
      cookieHeader[s + varName.length]? = some EQUALS ∧ (s = 0 ∨ cookieHeader[s - 1]? = some SP) := by
  have hbehind : (s : Int) + nameLen varName = (s + varName.length : Nat) := by
    rw [nameLen_short hlen, Nat.cast_add]
  unfold TakesCookie
  rw [hbehind, Int.toNat_natCast, deref_drop (by decide), deref_drop (by decide)]
  exact and_iff_right (Int.natCast_nonneg _)

/-- A byte of an occurrence is one of the name, up to its case. -/
theorem occurrence_getElem? {cookieHeader varName : List Byte} {k i : Nat}
    (hk : varName.map tolower <+: (cookieHeader.map tolower).drop k) (hle : k ≤ i) (hlt : i < k + varName.length) :
    ∃ a ∈ varName, ∃ b, cookieHeader[i]? = some b ∧ tolower a = tolower b := by
  have hindex : i - k < varName.length := by omega
  obtain ⟨tail, htail⟩ := hk
  have hget := congrArg (fun l => l[i - k]?) htail
  rw [List.getElem?_append_left (by rwa [List.length_map]), List.getElem?_map, List.getElem?_drop, List.getElem?_map,
    Nat.add_sub_of_le hle, List.getElem?_eq_getElem hindex, Option.map_some] at hget
  obtain ⟨b, hb, heq⟩ := Option.map_eq_some_iff.mp hget.symm
  exact ⟨varName[i - k], List.getElem_mem hindex, b, hb, heq.symm⟩

theorem tolower_plain : ∀ a b, tolower a = tolower b → (b = SP → a = SP) ∧ (b = EQUALS → a = EQUALS) := by
  have hall : ∀ a, (tolower a = tolower SP → a = SP) ∧ (tolower a = tolower EQUALS → a = EQUALS) :=
    byte_all _ (by decide +kernel)
  intro a b h
  refine ⟨?_, ?_⟩
  · rintro rfl
    exact (hall a).1 h
  · rintro rfl
    exact (hall a).2 h

section
variable {cookieHeader varName : List Byte} (hvar : NUL ∉ varName) (hblank : SP ∉ varName) (hname : varName ≠ [])
  (hlen : varName.length < 2 ^ 31)
include hvar hblank hname hlen

/-- The search finds the first cookie of the name: no occurrence of the name reaches over a blank, so what is
skipped has none. -/
theorem cookieLoop_first (n s : Nat) (hs : s ≤ cookieHeader.length) (hn : cookieHeader.length < s + n)
    (hbefore : ∀ i < s, ¬ CookieAt cookieHeader varName i) :
    (cookieLoop cookieHeader varName n s = some none ∧ ∀ i, ¬ CookieAt cookieHeader varName i) ∨
      ∃ i, cookieLoop cookieHeader varName n s = some (some (i + varName.length + 1)) ∧
        CookieAt cookieHeader varName i ∧ ∀ j < i, ¬ CookieAt cookieHeader varName j := by
  induction n generalizing s with
  | zero => omega
  | succ n ih =>
    rw [cookieLoop]
    cases hk : mgStrcasestrAt (cookieHeader.drop s) varName with
    | none =>
      have hturn : cookieTurn cookieHeader varName s = .notFound := by rw [cookieTurn, hk]
      have hnone := (mgStrcasestrAt_drop cookieHeader varName hvar s).1 hk
      rw [hturn]
      refine .inl ⟨rfl, fun i hi => ?_⟩
      rcases Nat.lt_or_ge i s with h | h
      · exact hbefore i h hi
      · exact hnone i h hi.1
    | some k =>
      obtain ⟨hat, hfirst⟩ := ((mgStrcasestrAt_drop cookieHeader varName hvar s).2 k).mp hk
      have hfit := mgStrcasestrAt_le hvar hk
      rw [List.length_drop] at hfit
      have hpos := List.length_pos_iff.mpr hname
      have hbehind : ((s : Int) + k + nameLen varName).toNat = s + k + varName.length := by
        rw [nameLen_short hlen]
        omega
      have hearlier : ∀ j < s + k, ¬ CookieAt cookieHeader varName j := by
        intro j hj hat'
        rcases Nat.lt_or_ge j s with h | h
        · exact hbefore j h hat'
        · exact hfirst j h hj hat'.1
      have htakes := @takesCookie_iff cookieHeader varName hlen (s + k)
      rcases cookieTurn_some hk with ⟨htake, hturn⟩ | ⟨htake, -, hturn⟩ | ⟨-, hout, -⟩
      · rw [hturn, hbehind]
        exact .inr ⟨s + k, rfl, ⟨hat, htakes.mp htake⟩, hearlier⟩
      · rw [hturn, hbehind]
        refine ih (s + k + varName.length) (by omega) (by omega) fun j hj hat' => ?_
        rcases Nat.lt_trichotomy j (s + k) with h | rfl | h
        · exact hearlier j h hat'
        · exact htake (htakes.mpr hat'.2)
        · -- the blank in front of it would be in the occurrence
          obtain ⟨a, ha, b, hb, heq⟩ := occurrence_getElem? hat (show s + k ≤ j - 1 by omega) (by omega)
          have hsp := hat'.2.2.resolve_left (by omega)
          rw [hb] at hsp
          have := (tolower_plain a b heq).1 (Option.some.inj hsp)
          exact hblank (this ▸ ha)
      · rw [nameLen_short hlen] at hout
        omega

end

/-- A cookie has the name, whatever the case of its letters. -/
def hasName (varName : List Byte) (c : Cookie) : Bool := c.1.map tolower == varName.map tolower

section
variable {varName : List Byte} (hblank : SP ∉ varName) (hequals : EQUALS ∉ varName)
include hequals

/-- At the start of a cookie it is its whole name that is compared. -/
theorem cookieAt_zero {c : Cookie} (hc : WellFormedCookie c) (rest : List Byte) :
    CookieAt (c.1 ++ EQUALS :: rest) varName 0 ↔ hasName varName c = true := by
  unfold CookieAt hasName
  rw [List.drop_zero, Nat.zero_add, beq_iff_eq]
  have hname := hc.name.2.2.1
  constructor
  · rintro ⟨hpre, hend, -⟩
    have hlen : varName.length = c.1.length := by
      rcases Nat.lt_trichotomy varName.length c.1.length with h | h | h
      · rw [List.getElem?_append_left h] at hend
        exact absurd (List.mem_of_getElem? hend) hname
      · exact h
      · obtain ⟨a, ha, b, hb, heq⟩ :=
          occurrence_getElem? (k := 0) (i := c.1.length) hpre (Nat.zero_le _) (by omega)
        rw [List.getElem?_append_right (Nat.le_refl _), Nat.sub_self] at hb
        have := (tolower_plain a b heq).2 (Option.some.inj hb).symm
        exact absurd (this ▸ ha) hequals
    rw [List.map_append] at hpre
    have hfull := List.prefix_of_prefix_length_le hpre (List.prefix_append _ _) (by
      rw [List.length_map, List.length_map, hlen])
    exact (List.IsPrefix.eq_of_length hfull (by rw [List.length_map, List.length_map, hlen])).symm
  · intro h
    have hlen : varName.length = c.1.length := by
      have := congrArg List.length h
      rw [List.length_map, List.length_map] at this
      exact this.symm
    refine ⟨?_, ?_, .inl rfl⟩
    · rw [List.map_append, h]
      exact List.prefix_append _ _
    · rw [hlen, List.getElem?_append_right (Nat.le_refl _), Nat.sub_self]
      rfl

omit hequals in
/-- Behind a blank the header is read as the rest of it. -/
theorem cookieAt_append (u text : List Byte) (hu : u[u.length - 1]? = some SP) (k : Nat) :
    CookieAt (u ++ text) varName (u.length + k) ↔ CookieAt text varName k := by
  unfold CookieAt
  have hdrop : ((u ++ text).map tolower).drop (u.length + k) = (text.map tolower).drop k := by
    rw [List.map_append, ← List.drop_drop, List.drop_left' (List.length_map tolower)]
  have hend : (u ++ text)[u.length + k + varName.length]? = text[k + varName.length]? := by
    rw [Nat.add_assoc, List.getElem?_append_right (Nat.le_add_right _ _), Nat.add_sub_cancel_left]
  have hpos : u ≠ [] := by
    rintro rfl
    exact absurd hu nofun
  have hulen := List.length_pos_iff.mpr hpos
  rw [hdrop, hend]
  cases k with
  | zero =>
    have hblank : (u ++ text)[u.length + 0 - 1]? = some SP := by
      rw [Nat.add_zero, List.getElem?_append_left (by omega)]
      exact hu
    exact and_congr_right fun _ => and_congr_right fun _ => iff_of_true (.inr hblank) (.inl rfl)
  | succ k =>
    have hbefore : (u ++ text)[u.length + (k + 1) - 1]? = text[k + 1 - 1]? := by
      rw [List.getElem?_append_right (by omega)]
      congr 1
      omega
    have hne : ¬ u.length + (k + 1) = 0 := by omega
    have hne' : ¬ k + 1 = 0 := by omega
    rw [hbefore, or_iff_right hne, or_iff_right hne']

/-- A cookie's blank is in front of the next one: nowhere in between another cookie starts. -/
theorem cookieAt_cons {c : Cookie} (hc : WellFormedCookie c) (cs : List Cookie) (i : Nat) :
    CookieAt (cookieText (c :: cs)) varName i ↔
      (i = 0 ∧ hasName varName c = true) ∨
        cs ≠ [] ∧ ∃ k, i = c.1.length + c.2.length + 3 + k ∧ CookieAt (cookieText cs) varName k := by
  rw [cookieText_cons]
  by_cases hi : i = 0
  · rw [hi, cookieAt_zero hequals hc]
    exact ⟨fun h => .inl ⟨rfl, h⟩, fun h => h.elim (fun h => h.2) (fun ⟨_, k, hk, _⟩ => absurd hk (by omega))⟩
  · by_cases hcs : cs = []
    · refine iff_of_false (fun h => ?_) (fun h => h.elim (fun h => hi h.1) (fun h => h.1 hcs))
      have hsp := List.mem_of_getElem? (h.2.2.resolve_left hi)
      rw [cookieTail, if_pos hcs] at hsp
      simp only [List.append_nil, List.mem_append, List.mem_cons] at hsp
      rcases hsp with h | h | h
      · exact hc.name.2.1 h
      · exact absurd h (by decide)
      · exact hc.value.2.1 h
    · obtain ⟨u, hu⟩ : ∃ u, u = c.1 ++ EQUALS :: (c.2 ++ [SEMICOLON, SP]) := ⟨_, rfl⟩
      have hlen : u.length = c.1.length + c.2.length + 3 := by
        rw [hu]
        simp only [List.length_append, List.length_cons, List.length_nil]
        omega
      have hlast : u[u.length - 1]? = some SP := by
        have hsplit : u = (c.1 ++ EQUALS :: (c.2 ++ [SEMICOLON])) ++ [SP] := by rw [hu]; simp
        rw [← List.getLast?_eq_getElem?, hsplit, List.getLast?_concat]
      have htext : c.1 ++ EQUALS :: (c.2 ++ cookieTail cs) = u ++ cookieText cs := by
        rw [cookieTail, if_neg hcs, hu]
        simp
      rw [htext, ← hlen]
      constructor
      · intro h
        -- the first blank is the last byte in front of the rest
        have hge : u.length ≤ i := by
          by_contra hlt
          have hsp := h.2.2.resolve_left hi
          have hin : i - 1 < (c.1 ++ EQUALS :: (c.2 ++ [SEMICOLON])).length := by
            simp only [List.length_append, List.length_cons, List.length_nil]
            omega
          have hsplit : u ++ cookieText cs = (c.1 ++ EQUALS :: (c.2 ++ [SEMICOLON])) ++ SP :: cookieText cs := by
            rw [hu]
            simp
          rw [hsplit, List.getElem?_append_left hin] at hsp
          have hmem := List.mem_of_getElem? hsp
          simp only [List.mem_append, List.mem_cons, List.not_mem_nil, or_false] at hmem
          rcases hmem with h | h | h | h
          · exact hc.name.2.1 h
          · exact absurd h (by decide)
          · exact hc.value.2.1 h
          · exact absurd h (by decide)
        refine .inr ⟨hcs, i - u.length, by omega, (cookieAt_append u (cookieText cs) hlast (i - u.length)).mp ?_⟩
        rwa [Nat.add_sub_of_le hge]
      · rintro (⟨h, -⟩ | ⟨-, k, rfl, h⟩)
        · exact absurd h hi
        · exact (cookieAt_append u (cookieText cs) hlast k).mpr h

/-- The first cookie of the name in the header is the first one in the list. -/
theorem cookieAt_first (cs : List Cookie) (hcs : ∀ c ∈ cs, WellFormedCookie c) :
    (cs.find? (hasName varName) = none → ∀ i, ¬ CookieAt (cookieText cs) varName i) ∧
      ∀ c, cs.find? (hasName varName) = some c →
        ∃ front rest, cookieText cs = front ++ (c.1 ++ EQUALS :: (c.2 ++ cookieTail rest)) ∧
          CookieAt (cookieText cs) varName front.length ∧
          ∀ j < front.length, ¬ CookieAt (cookieText cs) varName j := by
  induction cs with
  | nil =>
    refine ⟨fun _ i h => ?_, fun c h => absurd h nofun⟩
    have := h.2.1
    rw [cookieText, List.getElem?_nil] at this
    exact absurd this nofun
  | cons d cs ih =>
    have hd := hcs d List.mem_cons_self
    obtain ⟨hnone, hsome⟩ := ih fun c hc => hcs c (List.mem_cons_of_mem d hc)
    have hat := cookieAt_cons hequals hd cs
    rw [List.find?_cons]
    cases hmatch : hasName varName d with
    | true =>
      refine ⟨fun h => absurd h nofun, fun c h => ?_⟩
      obtain rfl := Option.some.inj h
      exact ⟨[], cs, cookieText_cons d cs, (hat 0).mpr (.inl ⟨rfl, hmatch⟩), fun j hj => absurd hj (Nat.not_lt_zero j)⟩
    | false =>
      refine ⟨fun h i hi => ?_, fun c h => ?_⟩
      · rcases (hat i).mp hi with ⟨-, hd'⟩ | ⟨-, k, -, hk⟩
        · rw [hmatch] at hd'
          exact absurd hd' nofun
        · exact hnone h k hk
      · obtain ⟨front, rest, htext, hfront, hearlier⟩ := hsome c h
        have hne : cs ≠ [] := by
          rintro rfl
          exact absurd h nofun
        refine ⟨d.1 ++ EQUALS :: (d.2 ++ [SEMICOLON, SP]) ++ front, rest, ?_,
          (hat _).mpr (.inr ⟨hne, front.length, ?_, hfront⟩), fun j hj hj' => ?_⟩
        · rw [cookieText_cons, cookieTail, if_neg hne, htext]
          simp
        · simp only [List.length_append, List.length_cons, List.length_nil]
          omega
        · rcases (hat j).mp hj' with ⟨-, hd'⟩ | ⟨-, k, rfl, hk⟩
          · rw [hmatch] at hd'
            exact absurd hd' nofun
          · simp only [List.length_append, List.length_cons, List.length_nil] at hj
            exact hearlier k (by omega) hk

end

/-! ### The value -/

theorem head?_getElem? (v tail : List Byte) (hv : v ≠ []) : (v ++ tail)[0]? = v.head? := by
  rw [List.getElem?_append_left (List.length_pos_iff.mpr hv), List.head?_eq_getElem?]

/-- The value between the bytes in front of it and the next cookie, as it is returned. -/
theorem cookieValue_eq {v front : List Byte} (hv : NUL ∉ v ∧ SP ∉ v ∧ v.getLast? ≠ some SEMICOLON) (cs : List Cookie)
    (hfront : front.getLast? = some EQUALS) (dst : List Byte) (dstSize : Nat) :
    ∃ tail, cookieValue (front ++ (v ++ cookieTail cs)) front.length dst dstSize =
      if (unquoted v).length < dstSize then
        (toInt32 ((unquoted v).length % 2 ^ 32),
          Memory.store dst 0
            (mgStrlcpy (unquoted v ++ tail) ((toInt32 ((unquoted v).length % 2 ^ 32) + 1) % 2 ^ 64).toNat ++ [NUL]))
      else (-3, dst) := by
  obtain ⟨header, hheader⟩ : ∃ header, header = front ++ (v ++ cookieTail cs) := ⟨_, rfl⟩
  have hne : front ≠ [] := by
    rintro rfl
    exact absurd hfront nofun
  have hpos := List.length_pos_iff.mpr hne
  have hdrop : header.drop front.length = v ++ cookieTail cs := by rw [hheader, List.drop_left]
  -- what is read in the value, and in front of it
  have hin (i : Nat) (hi : i < v.length) : header[front.length + i]? = v[i]? := by
    rw [hheader, List.getElem?_append_right (Nat.le_add_right _ _), Nat.add_sub_cancel_left,
      List.getElem?_append_left hi]
  have hequals : header[front.length - 1]? = some EQUALS := by
    rw [hheader, List.getElem?_append_left (by omega), ← List.getLast?_eq_getElem?, hfront]
  have hlast (hvne : v ≠ []) : header[front.length + v.length - 1]? = v.getLast? := by
    have hvpos := List.length_pos_iff.mpr hvne
    rw [Nat.add_sub_assoc hvpos, hin _ (by omega), List.getLast?_eq_getElem?]
  have hall : ∀ a ∈ v, (a != SP) = true := fun a ha => bne_iff_ne.mpr fun h => hv.2.1 (h ▸ ha)
  have hp : (let p := front.length + ((header.drop front.length).takeWhile (· != SP)).length
      if deref (header.drop (p - 1)) = SEMICOLON then p - 1 else p) = front.length + v.length := by
    rw [hdrop, List.takeWhile_append_of_pos hall, cookieTail]
    by_cases hcs : cs = []
    · rw [if_pos hcs, List.takeWhile_nil, List.append_nil]
      dsimp only
      rw [if_neg]
      rw [deref_drop (by decide)]
      by_cases hvne : v = []
      · rw [hvne, List.length_nil, Nat.add_zero, hequals]
        decide
      · rw [hlast hvne]
        exact hv.2.2
    · have hsemi : header[front.length + v.length]? = some SEMICOLON := by
        rw [hheader, List.getElem?_append_right (Nat.le_add_right _ _), Nat.add_sub_cancel_left,
          List.getElem?_append_right (Nat.le_refl _), Nat.sub_self, cookieTail, if_neg hcs]
        rfl
      rw [if_neg hcs, List.takeWhile_cons_of_pos (by decide), List.takeWhile_cons_of_neg (by decide),
        List.length_append, List.length_singleton]
      dsimp only
      rw [if_pos]
      · omega
      · rw [deref_drop (by decide), ← Nat.add_assoc, Nat.add_sub_cancel]
        exact hsemi
  have hquoted : (deref (header.drop front.length) = QUOTE ∧
      deref (header.drop (front.length + v.length - 1)) = QUOTE ∧ front.length + 1 < front.length + v.length) ↔
      (v.head? = some QUOTE ∧ v.getLast? = some QUOTE ∧ 2 ≤ v.length) := by
    rw [deref_drop (by decide), deref_drop (by decide)]
    by_cases hvne : v = []
    · rw [hvne]
      exact iff_of_false (fun h => absurd h.2.2 (by simp)) (fun h => absurd h.1 nofun)
    · have hzero := hin 0 (List.length_pos_iff.mpr hvne)
      rw [Nat.add_zero, ← List.head?_eq_getElem?] at hzero
      rw [hlast hvne, hzero]
      exact and_congr_right fun _ => and_congr_right fun _ => by omega
  rw [← hheader]
  unfold cookieValue
  dsimp only at hp ⊢
  rw [hp]
  by_cases hq : v.head? = some QUOTE ∧ v.getLast? = some QUOTE ∧ 2 ≤ v.length
  · refine ⟨QUOTE :: cookieTail cs, ?_⟩
    have hunq : unquoted v = v.tail.dropLast := if_pos hq
    have hcount : front.length + v.length - 1 - (front.length + 1) = (unquoted v).length := by
      rw [hunq, List.length_dropLast, List.length_tail]
      omega
    have htext : header.drop (front.length + 1) = unquoted v ++ QUOTE :: cookieTail cs := by
      have htail : v.tail = v.tail.dropLast ++ [QUOTE] := by
        have hlastq : v.tail.getLast? = some QUOTE := by
          obtain ⟨-, hend, hlong⟩ := hq
          match v with
          | [] => exact absurd hlong (by simp)
          | [_] => exact absurd hlong (by simp)
          | a :: b :: t => rwa [List.getLast?_cons_cons] at hend
        exact (List.dropLast_append_getLast? _ hlastq).symm
      rw [← List.drop_drop, hdrop, hunq, List.drop_one, List.tail_append_of_ne_nil, htail, List.append_assoc,
        List.dropLast_concat]
      · rfl
      · rintro rfl
        exact absurd hq.1 nofun
    rw [if_pos (hquoted.mpr hq)]
    dsimp only
    rw [hcount, htext]
  · refine ⟨cookieTail cs, ?_⟩
    have hunq : unquoted v = v := if_neg hq
    rw [if_neg (fun h => hq (hquoted.mp h))]
    dsimp only
    rw [Nat.add_sub_cancel_left, hdrop, hunq]

/-! ### `mg_get_cookie` -/

/-- A name to look for: a token that is not empty. -/
structure CookieName (varName : List Byte) : Prop where
  plain : NUL ∉ varName ∧ SP ∉ varName ∧ EQUALS ∉ varName ∧ SEMICOLON ∉ varName
  nonempty : varName ≠ []

section
variable {cs : List Cookie} (hcs : ∀ c ∈ cs, WellFormedCookie c) {varName : List Byte} (hname : CookieName varName)
  (hlen : varName.length ≤ INT_MAX) {turns : Nat} (hturns : (cookieText cs).length < turns)
include hcs hname hlen hturns

/-- The value of the first cookie of the name is taken, and without one there is nothing. -/
theorem mgGetCookie_eq (dst : List Byte) {dstSize : Nat} (hsize : dstSize ≠ 0) :
    (cs.find? (hasName varName) = none →
      mgGetCookie turns (some (cookieText cs)) (some varName) (some dst) dstSize = some (-1, dst.set 0 NUL)) ∧
      ∀ c, cs.find? (hasName varName) = some c →
        ∃ tail, mgGetCookie turns (some (cookieText cs)) (some varName) (some dst) dstSize =
          some (if (unquoted c.2).length < dstSize then
            (toInt32 ((unquoted c.2).length % 2 ^ 32),
              Memory.store (dst.set 0 NUL) 0
                (mgStrlcpy (unquoted c.2 ++ tail) ((toInt32 ((unquoted c.2).length % 2 ^ 32) + 1) % 2 ^ 64).toNat ++
                  [NUL]))
          else (-3, dst.set 0 NUL)) := by
  obtain ⟨hnul, hblank, hequals, -⟩ := hname.plain
  have hmax : INT_MAX = 2 ^ 31 - 1 := rfl
  have hloop := cookieLoop_first hnul hblank hname.nonempty (show varName.length < 2 ^ 31 by omega) turns 0
    (Nat.zero_le (cookieText cs).length) (by omega) (fun i hi => absurd hi (Nat.not_lt_zero i))
  obtain ⟨hnone, hsome⟩ := cookieAt_first hequals cs hcs
  refine ⟨fun h => ?_, fun c h => ?_⟩
  · obtain ⟨hend, -⟩ | ⟨i, -, hat, -⟩ := hloop
    · rw [mgGetCookie, if_neg hsize, hend]
    · exact absurd hat (hnone h i)
  · obtain ⟨front, rest, htext, hfront, hearlier⟩ := hsome c h
    obtain ⟨-, hno⟩ | ⟨i, hend, hat, hfirst⟩ := hloop
    · exact absurd hfront (hno front.length)
    · have hi : i = front.length := by
        rcases Nat.lt_trichotomy i front.length with hlt | heq | hlt
        · exact absurd hat (hearlier i hlt)
        · exact heq
        · exact absurd hfront (hfirst front.length hlt)
      have hc := hcs c (List.mem_of_find?_eq_some h)
      have hmatch := List.find?_some h
      have hcount : varName.length = c.1.length := by
        have := congrArg List.length (beq_iff_eq.mp hmatch)
        rw [List.length_map, List.length_map] at this
        exact this.symm
      have hsplit : cookieText cs = (front ++ c.1 ++ [EQUALS]) ++ (c.2 ++ cookieTail rest) := by
        rw [htext]
        simp
      have hstart : i + varName.length + 1 = (front ++ c.1 ++ [EQUALS]).length := by
        rw [hi, hcount, List.length_append, List.length_append, List.length_singleton]
      have hlast : (front ++ c.1 ++ [EQUALS]).getLast? = some EQUALS := List.getLast?_concat
      obtain ⟨tail, hvalue⟩ := cookieValue_eq hc.value rest hlast (dst.set 0 NUL) dstSize
      refine ⟨tail, ?_⟩
      rw [mgGetCookie, if_neg hsize, hend, hstart, hsplit]
      exact congrArg some hvalue

end

/-- `mg_get_cookie` returns the first cookie of the name with its length, or why it does not; names inside of
other names and values are never taken. -/
theorem mgGetCookie_named (cs : List Cookie) (hcs : ∀ c ∈ cs, WellFormedCookie c ∧ c.2.length ≤ INT_MAX)
    (varName : List Byte) (hname : CookieName varName) (hlen : varName.length ≤ INT_MAX) (dst : List Byte)
    (dstSize turns : Nat) (hturns : (cookieText cs).length < turns) :
    mgGetCookie turns (some (cookieText cs)) (some varName) (some dst) dstSize =
      some (if dstSize = 0 then ((-2 : Int), dst)
        else
          match cs.find? (hasName varName) with
          | none => ((-1 : Int), dst.set 0 NUL)
          | some c =>
            if (unquoted c.2).length < dstSize then
              (((unquoted c.2).length : Int), Memory.store dst 0 (unquoted c.2 ++ [NUL]))
            else ((-3 : Int), dst.set 0 NUL)) := by
  by_cases hsize : dstSize = 0
  · rw [mgGetCookie, if_pos hsize, if_pos hsize]
  · rw [if_neg hsize]
    obtain ⟨hnone, hsome⟩ := mgGetCookie_eq (fun c hc => (hcs c hc).1) hname hlen hturns dst hsize
    cases hfind : cs.find? (hasName varName) with
    | none => exact hnone hfind
    | some c =>
      obtain ⟨tail, heq⟩ := hsome c hfind
      have hshort : (unquoted c.2).length ≤ INT_MAX := by
        have hle := (hcs c (List.mem_of_find?_eq_some hfind)).2
        rw [unquoted]
        split
        · rw [List.length_dropLast, List.length_tail]
          omega
        · exact hle
      have hmax : INT_MAX = 2 ^ 31 - 1 := rfl
      have hint : toInt32 ((unquoted c.2).length % 2 ^ 32) = (unquoted c.2).length := by
        rw [Nat.mod_eq_of_lt (by omega), toInt32, if_pos (by omega)]
      have hsizet : (((unquoted c.2).length + 1 : Int) % 2 ^ 64).toNat = (unquoted c.2).length + 1 := by
        rw [Int.emod_eq_of_lt (by omega) (by omega)]
        omega
      have hcopy : mgStrlcpy (unquoted c.2 ++ tail) ((unquoted c.2).length + 1) = unquoted c.2 := by
        rw [mgStrlcpy, Nat.add_sub_cancel, List.take_left]
      have hstore (w : List Byte) : Memory.store (dst.set 0 NUL) 0 (w ++ [NUL]) = Memory.store dst 0 (w ++ [NUL]) := by
        cases w with
        | nil => exact congrArg (Memory.store · 1 []) (List.set_set NUL)
        | cons a w => exact congrArg (Memory.store · 1 (w ++ [NUL])) (List.set_set NUL)
      rw [hint, hsizet, hcopy, hstore] at heq
      exact heq

theorem mgGetCookie_named_quoted :
    mgGetCookie 30 (some (ascii "sid=a=1;id=2; ID=\"xy\"")) (some (ascii "id")) (some [7, 7, 7, 7]) 4 =
      some (2, ascii "xy" ++ [NUL, 7]) := by
  have hcs : ∀ c ∈ [(ascii "sid", ascii "a=1;id=2"), (ascii "ID", ascii "\"xy\"")],
      WellFormedCookie c ∧ c.2.length ≤ INT_MAX := by
    intro c hc
    simp only [List.mem_cons, List.not_mem_nil, or_false] at hc
    rcases hc with rfl | rfl
    · exact ⟨⟨by decide, by decide⟩, by decide⟩
    · exact ⟨⟨by decide, by decide⟩, by decide⟩
  have h := mgGetCookie_named _ hcs (ascii "id") ⟨by decide, by decide⟩ (by decide) [7, 7, 7, 7] 4 30 (by decide)
  exact h.trans (by decide)

/-- Without room for any value a cookie that is not there is no -1, and a value of 2^31 bytes that fits is
returned with a negative length. -/
theorem mgGetCookie_notNamed :
    mgGetCookie 30 (some (ascii "a=b")) (some (ascii "x")) (some []) 0 = some (-2, []) ∧
      ¬ ∀ (v dst : List Byte) (dstSize turns : Nat), WellFormedCookie (ascii "a", v) →
        (cookieText [(ascii "a", v)]).length < turns → (unquoted v).length < dstSize → dstSize ≤ dst.length →
        (mgGetCookie turns (some (cookieText [(ascii "a", v)])) (some (ascii "a")) (some dst) dstSize).map Prod.fst =
          some ((unquoted v).length : Int) := by
  refine ⟨by decide, fun h => ?_⟩
  obtain ⟨k, hk⟩ : ∃ k, k = 2 ^ 31 := ⟨2 ^ 31, rfl⟩
  obtain ⟨v, hv⟩ : ∃ v : List Byte, v = List.replicate k 98 := ⟨_, rfl⟩
  have hall : ∀ a ∈ v, a = 98 := fun a ha => List.eq_of_mem_replicate (hv ▸ ha)
  have hc : WellFormedCookie (ascii "a", v) := by
    have hname : NUL ∉ ascii "a" ∧ SP ∉ ascii "a" ∧ EQUALS ∉ ascii "a" ∧ SEMICOLON ∉ ascii "a" := by decide
    refine ⟨hname, fun hm => absurd (hall _ hm) (by decide), fun hm => absurd (hall _ hm) (by decide), fun hlast => ?_⟩
    exact absurd (hall _ (List.mem_of_getLast? hlast)) (by decide)
  have hunq : unquoted v = v := by
    apply if_neg
    rintro ⟨hq, -⟩
    exact absurd (hall _ (List.mem_of_mem_head? hq)) (by decide)
  have hlen : (unquoted v).length = k := by
    rw [hunq, hv, List.length_replicate]
  obtain ⟨turns, hturns⟩ : ∃ turns, (cookieText [(ascii "a", v)]).length < turns := ⟨_, Nat.lt_succ_self _⟩
  have hret := h v (List.replicate (k + 1) 0) (k + 1) turns hc hturns (by omega) (by rw [List.length_replicate])
  have hcs : ∀ c ∈ [(ascii "a", v)], WellFormedCookie c := by
    intro c hmem
    rw [List.mem_singleton.mp hmem]
    exact hc
  have hfind : [(ascii "a", v)].find? (hasName (ascii "a")) = some (ascii "a", v) :=
    List.find?_cons_of_pos (beq_self_eq_true _)
  have hname : CookieName (ascii "a") := ⟨by decide, by decide⟩
  obtain ⟨tail, heq⟩ := (mgGetCookie_eq hcs hname (by decide) hturns (List.replicate (k + 1) 0)
    (Nat.succ_ne_zero k)).2 _ hfind
  dsimp only at heq
  rw [heq, if_pos (by omega), hlen, hk] at hret
  have hwrap : toInt32 (2 ^ 31 % 2 ^ 32) = ((2 ^ 31 : Nat) : Int) := Option.some.inj hret
  exact absurd hwrap (by decide)

end CivetWeb
