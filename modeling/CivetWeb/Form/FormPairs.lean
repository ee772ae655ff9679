import CivetWeb.Form.FormVars
import CivetWeb.Form.QueryString

namespace CivetWeb

/-- A key and a value of a form. -/
abbrev FormPair := List Byte × List Byte

/-- Pairs as a client sends them: an alphanumeric key, and a url encoded value. -/
structure WellFormedPair (p : FormPair) : Prop where
  key : ∀ c ∈ p.1, isalnum c = true
  value : FormValue p.2

/-- `key=value` pairs, with a `&` between them. -/
def joinPairs : List FormPair → List Byte
  | [] => []
  | [p] => p.1 ++ EQUALS :: p.2
  | p :: q :: pairs => p.1 ++ EQUALS :: (p.2 ++ AMPERSAND :: joinPairs (q :: pairs))

/-- What stands behind a pair: nothing, or a `&` and the pairs that follow. -/
def pairsTail (pairs : List FormPair) : List Byte :=
  if pairs = [] then [] else AMPERSAND :: joinPairs pairs

theorem joinPairs_cons (p : FormPair) (pairs : List FormPair) :
    joinPairs (p :: pairs) = p.1 ++ EQUALS :: (p.2 ++ pairsTail pairs) := by
  cases pairs with
  | nil => simp [joinPairs, pairsTail]
  | cons q pairs => simp [joinPairs, pairsTail]

theorem isalnum_plain : ∀ c, isalnum c = true →
    c ≠ NUL ∧ c ≠ EQUALS ∧ c ≠ AMPERSAND ∧ isblank c = false ∧ literalByte c = true :=
  byte_all _ (by decide +kernel)

theorem tolower_equals : ∀ c, tolower c = tolower EQUALS → c = EQUALS :=
  byte_all _ (by decide +kernel)

/-- Letters and digits stand for themselves in a value. -/
theorem formValue_alnum (key : List Byte) (hkey : ∀ c ∈ key, isalnum c = true) :
    FormValue key ∧ formDecode key = key := by
  induction key with
  | nil => exact ⟨FormValue.nil, rfl⟩
  | cons c key ih =>
    obtain ⟨hc, hrest⟩ := List.forall_mem_cons.mp hkey
    obtain ⟨hvalue, hsame⟩ := ih hrest
    obtain ⟨-, -, hamp, -, hlit⟩ := isalnum_plain c hc
    simp only [literalByte, Bool.and_eq_true, bne_iff_ne, decide_eq_true_eq] at hlit
    refine ⟨FormValue.byte c key hlit.1.1 hamp hlit.1.2 hvalue, ?_⟩
    rw [formDecode_byte c key hlit.1.2, if_neg hlit.2, hsame]

/-- A value is decoded in place if an `int` holds its length. -/
theorem urlDecodeInPlace_value (v : List Byte) (h : FormValue v) :
    urlDecodeInPlace v = formDecode v ↔ v.length < 2 ^ 31 := by
  obtain ⟨d, hd⟩ := urlDecodeLoop_front v h (intLength v.length)
  have hcount : (v.take (intLength v.length)).length = intLength v.length := by
    rw [List.length_take, Nat.min_eq_left (intLength_le v.length)]
  have hplace : urlDecodeInPlace v = cstr d := by
    rw [urlDecodeInPlace_eq]
    dsimp only
    rw [mgUrlDecode, Nat.add_sub_cancel, hcount, hd]
  rw [hplace]
  by_cases hint : v.length < 2 ^ 31
  · rw [intLength_of_lt hint, List.take_length, urlDecodeLoop_form _ v h (formDecode_length_le v h)] at hd
    rw [← Option.some.inj hd]
    exact iff_of_true (cstr_of_no_nul _ (formDecode_no_nul v h)) hint
  · refine iff_of_false (fun heq => ?_) hint
    have hshort := intLength_of_ge (Nat.le_of_not_lt hint)
    have hroom := urlDecodeLoop_le_room true _ _ d hd
    have hcut := (prefix_cstr d).length_le
    obtain ⟨-, hge, -⟩ := urlDecodeLoop_lengths _ v _ (urlDecodeLoop_form _ v h (Nat.le_refl _))
    rw [heq] at hcut
    omega

section
variable (p : FormPair) (hp : WellFormedPair p)
include hp

theorem WellFormedPair.key_plain : ∀ c ∈ p.1, c ≠ NUL ∧ c ≠ EQUALS ∧ c ≠ AMPERSAND := by
  intro c hc
  obtain ⟨h1, h2, h3, -⟩ := isalnum_plain c (hp.key c hc)
  exact ⟨h1, h2, h3⟩

theorem WellFormedPair.key_decodes (dstLen : Nat) (hlen : p.1.length < dstLen) :
    mgUrlDecode p.1 dstLen true = some p.1 :=
  mgUrlDecode_literal p.1 dstLen true
    (fun c hc => (isalnum_plain c (hp.key c hc)).2.2.2.2) hlen

theorem WellFormedPair.decodeKey_key (hlen : p.1.length < 1024) : decodeKey p.1 = some p.1 := by
  rw [decodeKey_of_lt (by omega), WellFormedPair.key_decodes p hp 1024 hlen]

theorem WellFormedPair.key_cstr : cstr p.1 = p.1 :=
  cstr_of_no_nul p.1 (fun h => (WellFormedPair.key_plain p hp NUL h).1 rfl)

/-! ### `mg_split_form_urlencoded` -/

theorem urlDecodeInPlace_key : urlDecodeInPlace p.1 = p.1 ↔ p.1.length < 2 ^ 31 := by
  obtain ⟨hvalue, hsame⟩ := formValue_alnum p.1 hp.key
  have hkey := urlDecodeInPlace_value p.1 hvalue
  rwa [hsame] at hkey

theorem splitFormLoop_pair (slots : Nat) (pairs : List FormPair) :
    splitFormLoop (slots + 1) (joinPairs (p :: pairs)) =
      (p.1, some p.2) :: (if pairs = [] then [] else splitFormLoop slots (joinPairs pairs)) := by
  obtain ⟨data, hdata⟩ : ∃ data, data = joinPairs (p :: pairs) := ⟨_, rfl⟩
  rw [joinPairs_cons] at hdata
  have hstart : ∃ c t, data = c :: t ∧ isblank c = false := by
    cases hk : p.1 with
    | nil => exact ⟨EQUALS, _, by rw [hdata, hk]; rfl, rfl⟩
    | cons c k =>
      refine ⟨c, _, by rw [hdata, hk]; rfl, ?_⟩
      exact (isalnum_plain c (hp.key c (by rw [hk]; simp))).2.2.2.1
  obtain ⟨c, t, hct, hc⟩ := hstart
  have hblank : data.dropWhile isblank = data := by
    rw [hct, List.dropWhile_cons_of_neg (by simp [hc])]
  have hname : ∀ a ∈ p.1, (a != AMPERSAND && a != EQUALS) = true := by
    intro a ha
    obtain ⟨-, h2, h3⟩ := WellFormedPair.key_plain p hp a ha
    simp [h2, h3]
  have hvalue : ∀ a ∈ p.2, (a != AMPERSAND) = true := by
    intro a ha
    simpa using (FormValue.plain p.2 hp.value a ha).2
  have hstop : (EQUALS != AMPERSAND && EQUALS != EQUALS) = false := rfl
  have htake := Scan.takeWhile_stop (fun a => a != AMPERSAND && a != EQUALS) p.1 EQUALS
    (p.2 ++ pairsTail pairs) hname hstop
  have hdrop := Scan.dropWhile_stop (fun a => a != AMPERSAND && a != EQUALS) p.1 EQUALS
    (p.2 ++ pairsTail pairs) hname hstop
  rw [← hdata] at htake hdrop
  rw [joinPairs_cons, ← hdata, splitFormLoop]
  simp only [hblank, htake, hdrop, deref_cons, if_true, List.tail_cons]
  rw [if_neg (by rw [hct]; simp)]
  unfold pairsTail
  by_cases hnil : pairs = []
  · simp only [hnil, if_true, List.append_nil]
    rw [List.takeWhile_eq_self_iff.mpr hvalue, List.dropWhile_eq_nil_iff.mpr hvalue]
  · simp only [hnil, if_false]
    rw [Scan.takeWhile_stop _ _ _ _ hvalue rfl, Scan.dropWhile_stop _ _ _ _ hvalue rfl]

end

theorem splitFormLoop_join (pairs : List FormPair) (slots : Nat)
    (hpairs : ∀ p ∈ pairs, WellFormedPair p) (hslots : pairs.length ≤ slots) :
    splitFormLoop slots (joinPairs pairs) = pairs.map (fun p => (p.1, some p.2)) := by
  induction pairs generalizing slots with
  | nil => cases slots <;> rfl
  | cons p pairs ih =>
    cases slots with
    | zero => simp at hslots
    | succ slots =>
      have hrest := ih slots (fun q hq => hpairs q (by simp [hq])) (by simpa using hslots)
      rw [splitFormLoop_pair p (hpairs p (by simp)) slots pairs, List.map_cons]
      split_ifs with hnil
      · rw [hnil]
        rfl
      · rw [hrest]

/-- `mg_split_form_urlencoded` gives the keys and the decoded values, in order, where an `int` holds the number of
slots and all lengths. -/
theorem mgSplitFormUrlencoded_join (pairs : List FormPair) (slots : Nat)
    (hpairs : ∀ p ∈ pairs, WellFormedPair p) (hslots : pairs.length ≤ slots) (hpos : 0 < slots) :
    mgSplitFormUrlencoded (some (joinPairs pairs)) true slots =
        ((pairs.length : Int), pairs.map (fun p => (p.1, some (formDecode p.2)))) ↔
      slots < 2 ^ 31 ∧ ∀ p ∈ pairs, p.1.length < 2 ^ 31 ∧ p.2.length < 2 ^ 31 := by
  have hfields : (splitFormLoop slots (joinPairs pairs)).map
      (fun f => (urlDecodeInPlace f.1, f.2.map urlDecodeInPlace)) =
        pairs.map fun p => (urlDecodeInPlace p.1, some (urlDecodeInPlace p.2)) := by
    rw [splitFormLoop_join pairs slots hpairs hslots, List.map_map]
    rfl
  unfold mgSplitFormUrlencoded
  dsimp only
  rw [if_neg (fun h => absurd h.2 (Nat.ne_of_gt hpos)), hfields, List.length_map]
  by_cases hint : slots < 2 ^ 31
  · rw [if_neg (by simp; omega), and_iff_right hint, Prod.mk.injEq, and_iff_right rfl, List.map_inj_left]
    refine forall₂_congr fun p hp => ?_
    rw [Prod.mk.injEq, Option.some.injEq, urlDecodeInPlace_key p (hpairs p hp),
      urlDecodeInPlace_value p.2 (hpairs p hp).value]
  · rw [if_pos (.inr (.inr (Nat.le_of_not_lt hint)))]
    refine iff_of_false (fun h => ?_) fun h => hint h.1
    have hneg := congrArg Prod.fst h
    dsimp only at hneg
    omega

/-! ### `mg_get_var2` -/

theorem getVarLoop_skip (name : List Byte) (dstLen : Nat) (before : Byte) (occurrence : Nat)
    (u rest : List Byte) (hbefore : before ≠ AMPERSAND) (hu : AMPERSAND ∉ u) :
    getVarLoop name dstLen (some before) occurrence (u ++ AMPERSAND :: rest) =
      getVarLoop name dstLen (some AMPERSAND) occurrence rest := by
  have hno : ¬ (some before = none ∨ some before = some AMPERSAND) := by simp [hbefore]
  induction u generalizing before with
  | nil =>
    rw [List.nil_append, getVarLoop, if_neg (fun h => hno h.2.1)]
  | cons c u ih =>
    have hc : c ≠ AMPERSAND := fun h => hu (by simp [h])
    rw [List.cons_append, getVarLoop, if_neg (fun h => hno h.2.1)]
    exact ih c hc (fun h => hu (by simp [h])) (by simp [hc])

theorem getVarLoop_end (name : List Byte) (dstLen : Nat) (before : Byte) (occurrence : Nat)
    (u : List Byte) (hbefore : before ≠ AMPERSAND) (hu : AMPERSAND ∉ u) :
    getVarLoop name dstLen (some before) occurrence u = (-1, []) := by
  have hno : ¬ (some before = none ∨ some before = some AMPERSAND) := by simp [hbefore]
  induction u generalizing before with
  | nil => rfl
  | cons c u ih =>
    have hc : c ≠ AMPERSAND := fun h => hu (by simp [h])
    rw [getVarLoop, if_neg (fun h => hno h.2.1)]
    exact ih c hc (fun h => hu (by simp [h])) (by simp [hc])

/-- The key of a pair matches a name where the two are equal but for their case. -/
theorem pair_matches (p : FormPair) (hp : WellFormedPair p) (name tail : List Byte)
    (hname : ∀ c ∈ name, c ≠ NUL ∧ c ≠ EQUALS) :
    (name.length < (p.1 ++ EQUALS :: tail).length ∧
      (p.1 ++ EQUALS :: tail).getD name.length NUL = EQUALS ∧
      mgStrncasecmp name (p.1 ++ EQUALS :: tail) name.length = 0) ↔
        p.1.map tolower = name.map tolower := by
  have hnul : NUL ∉ name := fun h => (hname NUL h).1 rfl
  rw [mgStrncasecmp_eq_zero name _ hnul, List.map_append, List.map_cons]
  constructor
  · rintro ⟨hlen, hget, hpre⟩
    have hkey : p.1.length ≤ name.length := by
      by_contra hlt
      rw [List.getD_append _ _ _ _ (by omega), List.getD_eq_getElem _ _ (by omega)] at hget
      exact (WellFormedPair.key_plain p hp _ (List.getElem_mem (by omega))).2.1 hget
    have hname_le : name.length ≤ p.1.length := by
      by_contra hlt
      -- the '=' behind the key would stand in the name
      have hmem : tolower EQUALS ∈ name.map tolower := by
        have hkeypre : p.1.map tolower ++ [tolower EQUALS] <+:
            p.1.map tolower ++ tolower EQUALS :: tail.map tolower :=
          ⟨tail.map tolower, by simp⟩
        have hin := List.prefix_of_prefix_length_le hkeypre hpre (by simp; omega)
        exact hin.subset (by simp)
      obtain ⟨c, hc, hceq⟩ := List.mem_map.mp hmem
      exact (hname c hc).2 (tolower_equals c hceq)
    obtain ⟨rest, hrest⟩ := hpre
    exact (List.append_inj hrest.symm (by simp; omega)).1
  · intro heq
    have hlen : p.1.length = name.length := by simpa using congrArg List.length heq
    refine ⟨by simp; omega, ?_, ?_⟩
    · rw [← hlen, List.getD_append_right _ _ _ _ (Nat.le_refl _), Nat.sub_self]
      rfl
    · rw [heq]
      exact List.prefix_append _ _

/-- What `mg_get_var2` makes of the value that it has found. -/
def decodeVar (dstLen : Nat) (value : List Byte) : Int × List Byte :=
  match mgUrlDecodeInt value (sizeToInt value.length) (sizeToInt dstLen) true with
  | some d => (d.length, d)
  | none => (-2, [])

theorem decodeVar_iff (dstLen : Nat) (v : List Byte) (h : FormValue v) :
    decodeVar dstLen v = (((formDecode v).length : Int), formDecode v) ↔
      v.length < 2 ^ 31 ∧ (formDecode v).length ≤ urlDecodeRoom (sizeToInt dstLen) := by
  rw [← urlDecodeLoop_int_iff _ v h]
  unfold decodeVar mgUrlDecodeInt
  rw [← intLength]
  cases urlDecodeLoop true (urlDecodeRoom (sizeToInt dstLen)) (v.take (intLength v.length)) with
  | none => exact iff_of_false (fun hd => by have := congrArg Prod.fst hd; dsimp only at this; omega) (by simp)
  | some d =>
    rw [Option.some.injEq, Prod.mk.injEq]
    exact ⟨And.right, fun hd => ⟨by rw [hd], hd⟩⟩

/-- At a pair, `mg_get_var2` takes its value, or goes on behind it. -/
theorem getVarLoop_pair (p : FormPair) (hp : WellFormedPair p) (name : List Byte)
    (hname : ∀ c ∈ name, c ≠ NUL ∧ c ≠ EQUALS) (dstLen occurrence : Nat) (before : Option Byte)
    (hbefore : before = none ∨ before = some AMPERSAND) (pairs : List FormPair) :
    getVarLoop name dstLen before occurrence (joinPairs (p :: pairs)) =
      if p.1.map tolower = name.map tolower ∧ occurrence = 0 then decodeVar dstLen p.2
      else if pairs = [] then (-1, [])
      else getVarLoop name dstLen (some AMPERSAND)
        (if p.1.map tolower = name.map tolower then occurrence - 1 else occurrence)
        (joinPairs pairs) := by
  have hamp : ∀ c ∈ p.1 ++ EQUALS :: p.2, c ≠ AMPERSAND := by
    intro c hc
    rcases List.mem_append.mp hc with h | h
    · exact (WellFormedPair.key_plain p hp c h).2.2
    · rcases List.mem_cons.mp h with rfl | h
      · decide
      · exact (FormValue.plain p.2 hp.value c h).2
  obtain ⟨c, t, hct⟩ : ∃ c t, p.1 ++ EQUALS :: p.2 = c :: t := by
    cases p.1 with
    | nil => exact ⟨_, _, rfl⟩
    | cons c k => exact ⟨_, _, rfl⟩
  rw [hct] at hamp
  have hc : c ≠ AMPERSAND := hamp c (by simp)
  have ht : AMPERSAND ∉ t := fun h => hamp _ (List.mem_cons_of_mem c h) rfl
  have htext : joinPairs (p :: pairs) = c :: (t ++ pairsTail pairs) := by
    rw [joinPairs_cons, ← List.cons_append, ← List.append_assoc, hct, List.cons_append]
  have hmatch := pair_matches p hp name (p.2 ++ pairsTail pairs) hname
  rw [← joinPairs_cons, htext] at hmatch
  -- what follows the first byte of a pair that is not taken
  have hrest : ∀ occ, getVarLoop name dstLen (some c) occ (t ++ pairsTail pairs) =
      if pairs = [] then (-1, []) else getVarLoop name dstLen (some AMPERSAND) occ (joinPairs pairs) := by
    intro occ
    unfold pairsTail
    split_ifs with hnil
    · rw [List.append_nil]
      exact getVarLoop_end name dstLen c occ t hc ht
    · exact getVarLoop_skip name dstLen c occ t _ hc ht
  rw [htext, getVarLoop]
  by_cases heq : p.1.map tolower = name.map tolower
  · obtain ⟨h1, h2, h3⟩ := hmatch.mpr heq
    rw [if_pos ⟨h1, hbefore, h2, h3⟩]
    by_cases hocc : occurrence = 0
    · have hlen : name.length = p.1.length := by simpa using (congrArg List.length heq).symm
      have hdrop : (c :: (t ++ pairsTail pairs)).drop (name.length + 1) = p.2 ++ pairsTail pairs := by
        rw [← htext, joinPairs_cons, hlen, ← List.drop_drop, List.drop_left]
        rfl
      have hvalue : ∀ a ∈ p.2, (a != AMPERSAND) = true := by
        intro a ha
        simpa using (FormValue.plain p.2 hp.value a ha).2
      have htake : (p.2 ++ pairsTail pairs).takeWhile (· != AMPERSAND) = p.2 := by
        unfold pairsTail
        split_ifs
        · rw [List.append_nil, List.takeWhile_eq_self_iff.mpr hvalue]
        · exact Scan.takeWhile_stop _ _ _ _ hvalue rfl
      rw [if_pos hocc, if_pos ⟨heq, hocc⟩]
      simp only [hdrop, htake]
      rfl
    · rw [if_neg hocc, if_neg (fun h => hocc h.2), if_pos heq]
      exact hrest _
  · rw [if_neg (fun h => heq (hmatch.mp ⟨h.1, h.2.2.1, h.2.2.2⟩)), if_neg (fun h => heq h.1),
      if_neg heq]
    exact hrest _

/-- The pairs whose key is a name but for its case. -/
def pairsOf (name : List Byte) (pairs : List FormPair) : List FormPair :=
  pairs.filter (fun p => p.1.map tolower = name.map tolower)

theorem getVarLoop_join (pairs : List FormPair) (hpairs : ∀ p ∈ pairs, WellFormedPair p)
    (name : List Byte) (hname : ∀ c ∈ name, c ≠ NUL ∧ c ≠ EQUALS) (dstLen occurrence : Nat)
    (before : Option Byte) (hbefore : before = none ∨ before = some AMPERSAND) :
    getVarLoop name dstLen before occurrence (joinPairs pairs) =
      match (pairsOf name pairs)[occurrence]? with
      | some p => decodeVar dstLen p.2
      | none => (-1, []) := by
  induction pairs generalizing before occurrence with
  | nil => simp [joinPairs, getVarLoop, pairsOf]
  | cons p pairs ih =>
    rw [getVarLoop_pair p (hpairs p (by simp)) name hname dstLen occurrence before hbefore pairs]
    have hrec : ∀ occ, (if pairs = [] then ((-1 : Int), []) else
        getVarLoop name dstLen (some AMPERSAND) occ (joinPairs pairs)) =
          match (pairsOf name pairs)[occ]? with
          | some p => decodeVar dstLen p.2
          | none => (-1, []) := by
      intro occ
      by_cases hnil : pairs = []
      · simp [hnil, pairsOf]
      · rw [if_neg hnil]
        exact ih (fun q hq => hpairs q (by simp [hq])) occ (some AMPERSAND) (Or.inr rfl)
    rw [hrec]
    unfold pairsOf
    by_cases heq : p.1.map tolower = name.map tolower
    · rw [List.filter_cons_of_pos (by simpa using heq)]
      cases occurrence with
      | zero => rw [if_pos ⟨heq, rfl⟩, List.getElem?_cons_zero]
      | succ occ =>
        rw [if_neg (by simp), if_pos heq, List.getElem?_cons_succ, Nat.add_sub_cancel]
    · rw [List.filter_cons_of_neg (by simpa using heq), if_neg (fun h => heq h.1), if_neg heq]

end CivetWeb
