import CivetWeb.Form.BodyReader
import Mathlib.Data.List.GetD

namespace CivetWeb

theorem no_nul_of_cstr_length (s : List Byte) (h : s.length ≤ (cstr s).length) : NUL ∉ s := by
  have hs : cstr s = s := (List.takeWhile_prefix _).eq_of_length_le h
  intro hm
  rw [← hs] at hm
  simpa using Scan.takeWhile_all (· != NUL) s NUL hm

/-- `strchr` splits the buffer at the first `c`; no NUL stands before it. -/
theorem strchrAt_some (s : List Byte) (c : Byte) (i : Nat) (h : strchrAt s c = some i) :
    ∃ u v, s = u ++ c :: v ∧ u.length = i ∧ ∀ a ∈ u, a ≠ NUL ∧ a ≠ c := by
  obtain ⟨hi, hget, hbefore⟩ := List.idxOf?_eq_some_iff.mp h
  have hs : s = (cstr s).take i ++ c :: ((cstr s).drop (i + 1) ++ s.dropWhile (· != NUL)) := by
    rw [← List.cons_append, ← List.append_assoc, ← hget, List.getElem_cons_drop,
      List.take_append_drop, cstr, List.takeWhile_append_dropWhile]
  refine ⟨(cstr s).take i, _, hs, ?_, ?_⟩
  · rw [List.length_take]
    omega
  · intro a ha
    constructor
    · simpa using Scan.takeWhile_all (· != NUL) s a (List.mem_of_mem_take ha)
    · obtain ⟨j, hj, hja⟩ := List.mem_iff_getElem.mp ha
      rw [List.length_take] at hj
      rw [← hja, List.getElem_take]
      exact hbefore j (by omega)

theorem strchrAt_none (s : List Byte) (c : Byte) (h : strchrAt s c = none) : c ∉ cstr s := by
  simpa [strchrAt, List.idxOf?_eq_none_iff] using h

theorem strchrAt_append (u v : List Byte) (c : Byte) (hc : c ≠ NUL)
    (hu : ∀ a ∈ u, a ≠ NUL ∧ a ≠ c) : strchrAt (u ++ c :: v) c = some u.length := by
  have hcstr : cstr (u ++ c :: v) = u ++ c :: cstr v := by
    rw [cstr, List.takeWhile_append_of_pos (fun a ha => by simpa using (hu a ha).1),
      List.takeWhile_cons_of_pos (by simpa using hc), cstr]
  rw [strchrAt, hcstr, List.idxOf?_eq_some_iff]
  refine ⟨by simp, by simp, fun j hj => ?_⟩
  rw [List.getElem_append_left hj]
  exact (hu _ (List.getElem_mem hj)).2

theorem strchrAt_eq_none (s : List Byte) (c : Byte) (h : c ∉ s) : strchrAt s c = none := by
  rw [strchrAt, List.idxOf?_eq_none_iff]
  exact fun hm => h ((List.takeWhile_subset _) hm)

/-- An escape that the end of a value cuts short. -/
def CutEscape (s : List Byte) : Prop :=
  s = [PERCENT] ∨ ∃ x, x ≠ NUL ∧ x ≠ AMPERSAND ∧ s = [PERCENT, x]

theorem trimValue_le (value : List Byte) (n : Nat) : trimValue value n ≤ n := by
  unfold trimValue
  split_ifs <;> omega

/-- What is trimmed off a value is an escape cut short. -/
theorem trimValue_cut (value : List Byte) (hplain : ∀ a ∈ value, a ≠ NUL ∧ a ≠ AMPERSAND)
    (hlt : trimValue value value.length < value.length) :
    CutEscape (value.drop (trimValue value value.length)) := by
  unfold trimValue at hlt ⊢
  by_cases h2 : 2 ≤ value.length ∧ value.getD (value.length - 2) NUL = PERCENT
  · rw [if_pos h2]
    obtain ⟨hlen, hget⟩ := h2
    have h0 : value.length - 2 < value.length := by omega
    have h1 : value.length - 1 < value.length := by omega
    rw [List.getD_eq_getElem _ _ h0] at hget
    have hdrop : value.drop (value.length - 2) = [PERCENT, value[value.length - 1]] := by
      rw [List.drop_eq_getElem_cons h0, hget, List.drop_eq_getElem_cons (by omega)]
      have hi : value.length - 2 + 1 = value.length - 1 := by omega
      simp only [hi]
      rw [List.drop_eq_nil_of_le (by omega)]
    have hx := hplain _ (List.getElem_mem h1)
    exact Or.inr ⟨_, hx.1, hx.2, hdrop⟩
  · rw [if_neg h2] at hlt ⊢
    by_cases h1 : 1 ≤ value.length ∧ value.getD (value.length - 1) NUL = PERCENT
    · rw [if_pos h1]
      obtain ⟨hlen, hget⟩ := h1
      have h0 : value.length - 1 < value.length := by omega
      rw [List.getD_eq_getElem _ _ h0] at hget
      left
      rw [List.drop_eq_getElem_cons h0, hget, List.drop_eq_nil_of_le (by omega)]
    · rw [if_neg h1] at hlt
      omega

/-- What fits the buffer has a length that an `int` holds. -/
theorem bufLen_int {n : Nat} (h : n ≤ MG_BUF_LEN - 1) : n < 2 ^ 31 :=
  h.trans_lt (by decide)

/-- A key of a form, as the loop can find and decode it. -/
structure FieldName (key : List Byte) : Prop where
  bytes : ∀ a ∈ key, a ≠ NUL ∧ a ≠ EQUALS
  fits : key.length < MG_BUF_LEN - 1
  decodes : (mgUrlDecode key 1024 true).isSome = true

section
variable {W : Type} (unread : W → List Byte)

/-- What is left of the body behind the place the loop is at. -/
def FieldsAt.ahead : FieldsAt W → List Byte
  | .field s => s.buf ++ unread s.world
  | .block f s => s.buf.drop f.val ++ unread s.world

def FieldsAt.state : FieldsAt W → FormState W
  | .field s => s
  | .block _ s => s

/-- The end of the data has not been seen, and the buffer does not overflow. -/
structure FieldsAt.Fits (p : FieldsAt W) : Prop where
  open_data : p.state.allDataRead = false
  buf_le : p.state.buf.length ≤ MG_BUF_LEN - 1
  val_le : ∀ f s, p = .block f s → f.val ≤ s.buf.length

/-- The loop over the blocks stands before an escape cut short, with nothing left to read. -/
def FieldsAt.Stalled : FieldsAt W → Prop
  | .field _ => False
  | .block f s => f.storage = MG_FORM_FIELD_STORAGE_GET ∧ f.val = 0 ∧ CutEscape s.buf ∧
      unread s.world = []

/-- What a step can do to the rest of the body: read a key, end a value, or use a part of a value.
A step that uses nothing reads more of the body, gives the value up, or stalls. -/
inductive FieldsMove : FieldsAt W → FieldsAt W → Prop where
  | key (s : FormState W) (f : FieldLocals) (s' : FormState W) (key : List Byte) :
      FieldName key →
      FieldsAt.ahead unread (.field s) = key ++ EQUALS :: FieldsAt.ahead unread (.block f s') →
      (unread s'.world).length ≤ (unread s.world).length →
      FieldsMove (.field s) (.block f s')
  | pair (f : FieldLocals) (s s' : FormState W) (value : List Byte) :
      (∀ a ∈ value, a ≠ NUL ∧ a ≠ AMPERSAND) →
      FieldsAt.ahead unread (.block f s) = value ++ AMPERSAND :: FieldsAt.ahead unread (.field s') →
      (unread s'.world).length ≤ (unread s.world).length →
      FieldsMove (.block f s) (.field s')
  | more (f : FieldLocals) (s : FormState W) (f' : FieldLocals) (s' : FormState W)
      (used : List Byte) :
      (∀ a ∈ used, a ≠ NUL ∧ a ≠ AMPERSAND) →
      FieldsAt.ahead unread (.block f s) = used ++ FieldsAt.ahead unread (.block f' s') →
      (f'.storage = MG_FORM_FIELD_STORAGE_GET →
        f.storage = MG_FORM_FIELD_STORAGE_GET ∧ ∀ a ∈ used, SP < a) →
      (unread s'.world).length ≤ (unread s.world).length →
      (used ≠ [] ∨ (unread s'.world).length < (unread s.world).length ∨
        (f.storage = MG_FORM_FIELD_STORAGE_GET ∧ f'.storage ≠ MG_FORM_FIELD_STORAGE_GET) ∨
        FieldsAt.Stalled unread (.block f' s')) →
      FieldsMove (.block f s) (.block f' s')

end

section
variable {W : Type} (env : FormHandler W) {unread : W → List Byte}

theorem urlEncodedFieldFound_decodes (key : List Byte) (s : FormState W)
    (h : storageAborts (urlEncodedFieldFound env key none s).1 = false) :
    (decodeKey key).isSome = true := by
  cases hd : decodeKey key with
  | some keyDec => rfl
  | none =>
    simp only [urlEncodedFieldFound, hd] at h
    exact absurd h (by decide)

/-- Where `url_encoded_field_get` does not stop the request, it has trimmed and decoded the value. -/
theorem urlEncodedFieldGet_trims (key value : List Byte) (n : Nat) (s : FormState W) (hn : n < 2 ^ 31)
    (h : (urlEncodedFieldGet env key value n s).1.1 ≠ MG_FORM_FIELD_HANDLE_ABORT) :
    (urlEncodedFieldGet env key value n s).1.2 = trimValue value n ∧
      ∀ a ∈ value.take (trimValue value n), SP < a := by
  unfold urlEncodedFieldGet at h ⊢
  dsimp only at h ⊢
  split_ifs at h ⊢ with ha
  · exact absurd rfl h
  · rw [mgUrlDecodeInt_whole, intLength_of_lt ((trimValue_le value n).trans_lt hn)] at h ⊢
    cases hk : decodeKey key with
    | none =>
      simp only [hk] at h
      exact absurd rfl h
    | some keyDec =>
      cases hv : mgUrlDecode (value.take (trimValue value n)) (trimValue value n + 1) true with
      | none =>
        simp only [hk, hv] at h
        exact absurd rfl h
      | some valueDec =>
        refine ⟨rfl, ?_⟩
        apply (mgUrlDecode_isSome _ (trimValue value n + 1) ?_).mp
        · rw [hv]
          rfl
        · rw [List.length_take]
          omega

variable (hread : BodyReader env unread)
include hread

theorem fieldKey_move (s : FormState W) (t : FieldsAt W) (hopen : s.allDataRead = false)
    (hlen : s.buf.length ≤ MG_BUF_LEN - 1) (h : fieldKey env s = .inl t) :
    FieldsMove unread (.field s) t ∧ t.Fits := by
  unfold fieldKey at h
  cases hi : strchrAt s.buf EQUALS with
  | none => simp [hi] at h
  | some keylen =>
    obtain ⟨key, rest, hbuf, hkey, hbytes⟩ := strchrAt_some _ _ _ hi
    have htake : s.buf.take keylen = key := by
      rw [hbuf, ← hkey, List.take_left]
    simp only [hi, htake] at h
    obtain ⟨s0, hs0⟩ : ∃ s0, s0 = { s with fieldCount := s.fieldCount + 1, path := [] } := ⟨_, rfl⟩
    rw [← hs0] at h
    have hsame : SameData unread s s0 := by
      rw [hs0]
      exact ⟨rfl, rfl, rfl⟩
    have hfound := urlEncodedFieldFound_same env hread key none s0
    cases hab : storageAborts (urlEncodedFieldFound env key none s0).1 with
    | true => simp [hab] at h
    | false =>
      have hdec := urlEncodedFieldFound_decodes env key s0 hab
      rw [decodeKey_of_lt (bufLen_int (by rw [hbuf, List.length_append] at hlen; omega))] at hdec
      simp only [hab, Bool.false_eq_true, if_false, Sum.inl.injEq] at h
      obtain ⟨s1, hs1, hs1same⟩ : ∃ s1, t = .block ⟨keylen,
          (urlEncodedFieldFound env key none s0).1, keylen + 1, 0⟩ s1 ∧ SameData unread s s1 := by
        refine ⟨_, h.symm, ?_⟩
        split_ifs
        · exact (hsame.trans hfound).trans (openStore_same env hread _)
        · exact hsame.trans hfound
      have hlenkey : key.length < s.buf.length := by
        rw [hbuf]
        simp
      subst hs1
      refine ⟨FieldsMove.key s _ s1 key ⟨hbytes, by omega, hdec⟩ ?_ ?_, ?_, ?_, ?_⟩
      · have hdrop : (key ++ EQUALS :: rest).drop (keylen + 1) = rest := by
          rw [← hkey, ← List.drop_drop, List.drop_left]
          rfl
        simp only [FieldsAt.ahead]
        rw [hs1same.buf, hs1same.unread, hbuf, hdrop]
        simp
      · rw [hs1same.unread]
      · exact hs1same.allDataRead.trans hopen
      · simp only [FieldsAt.state]
        rw [hs1same.buf]
        exact hlen
      · intro f u hfu
        cases hfu
        rw [hs1same.buf]
        show keylen + 1 ≤ _
        omega

theorem fieldStep_move (s : FormState W) (t : FieldsAt W)
    (hfits : (FieldsAt.field s).Fits) (h : fieldStep env s = .inl t) :
    FieldsMove unread (.field s) t ∧ t.Fits := by
  obtain ⟨hopen, hlen, -⟩ := hfits
  simp only [FieldsAt.state] at hopen hlen
  unfold fieldStep at h
  by_cases hfull : s.buf.length < MG_BUF_LEN - 1
  · rw [if_pos hfull] at h
    cases hf : fillBuf env s with
    | mk ok s' =>
      cases ok with
      | false => simp [hf] at h
      | true =>
        simp only [hf] at h
        obtain ⟨r, hbuf, hun, hle, -, hall⟩ := fillBuf_reads env hread s s' hfull hf
        split_ifs at h with hempty
        have hopen' : s'.allDataRead = false := by
          rw [hall]
          split_ifs with hr
          · rw [decide_eq_false_iff_not]
            rintro hb
            rw [hbuf, hb, hr] at hempty
            exact hempty (by simp)
          · exact hopen
        obtain ⟨hmove, hfits⟩ := fieldKey_move env hread s' t hopen' hle h
        refine ⟨?_, hfits⟩
        cases hmove with
        | key _ f u key hname hahead hless =>
          refine FieldsMove.key s f u key hname ?_ ?_
          · rw [← hahead]
            simp only [FieldsAt.ahead]
            rw [hbuf, hun, List.append_assoc]
          · rw [hun, List.length_append]
            omega
  · rw [if_neg hfull] at h
    exact fieldKey_move env hread s t hopen hlen h

/-- Behind a value the loop goes on at the next field. -/
theorem fieldEnd_field (abortRead : Bool) (next : Nat) (s : FormState W) (t : FieldsAt W)
    (h : fieldEnd env abortRead next s = .inl t) :
    ∃ s', t = .field s' ∧ abortRead = false ∧ (s.allDataRead = false ∨ s.buf ≠ []) ∧
      s'.buf = s.buf.drop next ∧ s'.allDataRead = s.allDataRead ∧
      unread s'.world = unread s.world := by
  unfold fieldEnd at h
  obtain ⟨stop, s1, hs1, hsame⟩ : ∃ stop s1, (if s.fpOpen then closeStore env s else (false, s)) =
      (stop, s1) ∧ SameData unread s s1 := by
    cases s.fpOpen with
    | true => exact ⟨_, _, rfl, closeStore_same env hread s⟩
    | false => exact ⟨_, _, rfl, SameData.refl s⟩
  rw [hs1] at h
  dsimp only at h
  split_ifs at h with hc
  simp only [not_or, not_and] at hc
  refine ⟨_, (Sum.inl.inj h).symm, by simpa using hc.2.2, ?_, ?_, hsame.allDataRead, hsame.unread⟩
  · rw [← hsame.allDataRead, ← hsame.buf]
    cases hall : s1.allDataRead with
    | false => exact Or.inl rfl
    | true => exact Or.inr (fun hnil => hc.2.1 hall (by simp [hnil]))
  · show s1.buf.drop next = _
    rw [hsame.buf]

/-- Inside a value the loop goes on with what it has left over and what it reads. -/
theorem blockNext_block (f : FieldLocals) (next : Nat) (s : FormState W) (t : FieldsAt W)
    (hopen : s.allDataRead = false) (hlen : (s.buf.drop next).length < MG_BUF_LEN - 1)
    (h : blockNext env f next s = .inl t) :
    ∃ r s', t = .block { f with val := 0 } s' ∧ s'.buf = s.buf.drop next ++ r ∧
      unread s.world = r ++ unread s'.world ∧ s'.buf.length ≤ MG_BUF_LEN - 1 ∧ s'.buf ≠ [] ∧
      (r = [] → unread s.world = []) ∧ s'.allDataRead = false := by
  unfold blockNext at h
  dsimp only at h
  rw [if_pos hlen] at h
  obtain ⟨s0, hs0⟩ : ∃ s0, s0 = { s with buf := s.buf.drop next } := ⟨_, rfl⟩
  rw [← hs0] at h
  have hbuf0 : s0.buf = s.buf.drop next := by rw [hs0]
  have hun0 : s0.world = s.world := by rw [hs0]
  have hopen0 : s0.allDataRead = false := by rw [hs0]; exact hopen
  cases hf : fillBuf env s0 with
  | mk ok s' =>
    cases ok with
    | false => simp [hf] at h
    | true =>
      obtain ⟨r, hbuf, hun, hle, hend, hall⟩ :=
        fillBuf_reads env hread s0 s' (by rw [hbuf0]; exact hlen) hf
      rw [hbuf0] at hbuf hall
      rw [hun0] at hun hend
      rw [hopen0] at hall
      simp only [hf] at h
      by_cases hempty : s'.buf.length < 1
      · -- the end of the data: the loop over the fields stops
        rw [if_pos hempty] at h
        have hnil : s'.buf = [] := List.eq_nil_of_length_eq_zero (by omega)
        rw [hbuf, List.append_eq_nil_iff] at hnil
        rw [if_pos hnil.2, hnil.1] at hall
        obtain ⟨-, -, -, hor, -⟩ := fieldEnd_field env hread false 0 s' t h
        rcases hor with hor | hor
        · rw [hor] at hall
          simp at hall
        · rw [hbuf, hnil.1, hnil.2] at hor
          exact absurd rfl hor
      · rw [if_neg hempty] at h
        refine ⟨r, s', (Sum.inl.inj h).symm, hbuf, hun, hle, ?_, hend, ?_⟩
        · rintro hnil
          rw [hnil] at hempty
          exact hempty (by simp)
        · rw [hall]
          split_ifs with hr
          · rw [decide_eq_false_iff_not]
            rintro hb
            rw [hbuf, hb, hr] at hempty
            exact hempty (by simp)
          · rfl

theorem blockEnd_pair (f f' : FieldLocals) (s s1 : FormState W) (t : FieldsAt W) (vallen : Nat)
    (value rest : List Byte) (hfits : (FieldsAt.block f s).Fits) (hsame : SameData unread s s1)
    (hplain : ∀ a ∈ value, a ≠ NUL ∧ a ≠ AMPERSAND)
    (hbuf : s.buf.drop f.val = value ++ AMPERSAND :: rest)
    (h : blockEnd env f' true vallen (f.val + (value.length + 1)) s1 = .inl t) :
    FieldsMove unread (.block f s) t ∧ t.Fits := by
  unfold blockEnd at h
  rw [if_pos rfl] at h
  have hw := hsame.trans (writeStore_same env hread (s1.buf.drop f'.val) vallen s1)
  obtain ⟨s', rfl, -, -, hbuf', hall', hun'⟩ := fieldEnd_field env hread _ _ _ t h
  have hdrop : s'.buf = rest := by
    rw [hbuf', hw.buf, ← List.drop_drop, hbuf, ← List.drop_drop, List.drop_left]
    rfl
  refine ⟨FieldsMove.pair f s s' value hplain ?_ ?_, ?_, ?_, ?_⟩
  · simp only [FieldsAt.ahead]
    rw [hbuf, hdrop, hun', hw.unread]
    simp
  · rw [hun', hw.unread]
  · exact hall'.trans (hw.allDataRead.trans hfits.open_data)
  · have hle := hfits.buf_le
    simp only [FieldsAt.state] at hle ⊢
    rw [hbuf', hw.buf, List.length_drop]
    omega
  · intro g u hgu
    cases hgu

theorem blockEnd_more (f f' : FieldLocals) (s s1 : FormState W) (t : FieldsAt W) (n : Nat)
    (hfits : (FieldsAt.block f s).Fits) (hsame : SameData unread s s1)
    (hplain : ∀ a ∈ s.buf.drop f.val, a ≠ NUL ∧ a ≠ AMPERSAND)
    (hget : f'.storage = MG_FORM_FIELD_STORAGE_GET →
      f.storage = MG_FORM_FIELD_STORAGE_GET ∧ ∀ a ∈ (s.buf.drop f.val).take n, SP < a)
    (hrest : (s.buf.drop f.val).drop n = [] ∨
      (f.storage = MG_FORM_FIELD_STORAGE_GET ∧ CutEscape ((s.buf.drop f.val).drop n)))
    (h : blockEnd env f' false n (f.val + n) s1 = .inl t) :
    FieldsMove unread (.block f s) t ∧ t.Fits := by
  obtain ⟨value, hvalue⟩ : ∃ value, value = s.buf.drop f.val := ⟨_, rfl⟩
  rw [← hvalue] at hplain hget hrest
  unfold blockEnd at h
  rw [if_neg Bool.false_ne_true] at h
  have hw := hsame.trans (writeStore_same env hread (s1.buf.drop f'.val) n s1)
  obtain ⟨s2, hs2⟩ : ∃ s2, s2 = writeStore env (s1.buf.drop f'.val) n s1 := ⟨_, rfl⟩
  rw [← hs2] at h hw
  have hdrop : s2.buf.drop (f.val + n) = value.drop n := by
    rw [hw.buf, ← List.drop_drop, hvalue]
  have hshort : (value.drop n).length ≤ 2 := by
    rcases hrest with hr | ⟨-, hr | ⟨x, -, -, hr⟩⟩ <;> rw [hr] <;> simp
  have hroom : (s2.buf.drop (f.val + n)).length < MG_BUF_LEN - 1 := by
    rw [hdrop]
    have : 2 < MG_BUF_LEN - 1 := by decide
    omega
  obtain ⟨r, s', rfl, hbuf', hun', hle', hne', hend', hall'⟩ := blockNext_block env hread f' (f.val + n) s2 t
    (hw.allDataRead.trans hfits.open_data) hroom h
  rw [hw.unread] at hun' hend'
  rw [hdrop] at hbuf'
  have hless : (unread s'.world).length ≤ (unread s.world).length := by
    rw [hun', List.length_append]
    omega
  refine ⟨FieldsMove.more f s _ s' (value.take n) ?_ ?_ hget hless ?_, hall', hle', ?_⟩
  · intro a ha
    exact hplain a (List.mem_of_mem_take ha)
  · simp only [FieldsAt.ahead]
    rw [← hvalue, hun', hbuf', List.drop_zero]
    conv_lhs => rw [← List.take_append_drop n value]
    simp only [List.append_assoc]
  · -- where nothing is used, the read has to bring something
    by_cases hused : value.take n = []
    · right
      by_cases hr : r = []
      · right
        have hvn : value.drop n = value := by
          have := List.take_append_drop n value
          rwa [hused, List.nil_append] at this
        rw [hvn, hr, List.append_nil] at hbuf'
        rw [hvn] at hrest
        obtain hnil | ⟨hg, hcut⟩ := hrest
        · exact absurd (hbuf'.trans hnil) hne'
        by_cases hg' : f'.storage = MG_FORM_FIELD_STORAGE_GET
        · right
          refine ⟨hg', rfl, by rw [hbuf']; exact hcut, ?_⟩
          rw [hr, List.nil_append] at hun'
          rw [← hun']
          exact hend' hr
        · exact Or.inl ⟨hg, hg'⟩
      · left
        rw [hun', List.length_append]
        have := List.length_pos_of_ne_nil hr
        omega
    · exact Or.inl hused
  · intro g u hgu
    cases hgu
    exact Nat.zero_le _

theorem blockStep_move (f : FieldLocals) (s : FormState W) (t : FieldsAt W)
    (hfits : (FieldsAt.block f s).Fits) (h : blockStep env f s = .inl t) :
    FieldsMove unread (.block f s) t ∧ t.Fits := by
  unfold blockStep at h
  obtain ⟨value, hvalue⟩ : ∃ value, value = s.buf.drop f.val := ⟨_, rfl⟩
  have hval := hfits.val_le f s rfl
  rw [← hvalue] at h
  have habort : ∀ s1, fieldEnd env true 0 s1 ≠ .inl t := by
    intro s1 h1
    obtain ⟨_, -, hfalse, -⟩ := fieldEnd_field env hread true 0 s1 t h1
    cases hfalse
  cases hfound : strchrAt value AMPERSAND with
  | some i =>
    obtain ⟨u, v, huv, hi, hu⟩ := strchrAt_some value AMPERSAND i hfound
    subst hi
    simp only [hfound, Option.getD_some, Option.isSome_some, Bool.true_or,
      Option.map_some] at h
    rw [hvalue] at huv
    by_cases hg : f.storage = MG_FORM_FIELD_STORAGE_GET
    · rw [if_pos hg] at h
      obtain ⟨key, hkey⟩ : ∃ key, key = if 0 < f.getBlock then [] else s.buf.take f.keylen := ⟨_, rfl⟩
      rw [← hkey] at h
      have hsame := urlEncodedFieldGet_same env hread key value u.length s
      by_cases hr : (urlEncodedFieldGet env key value u.length s).1.1 = MG_FORM_FIELD_HANDLE_ABORT
      · rw [if_pos hr] at h
        exact absurd h (habort _)
      · rw [if_neg hr] at h
        exact blockEnd_pair env hread f _ s _ t _ u v hfits hsame hu huv h
    · rw [if_neg hg] at h
      exact blockEnd_pair env hread f f s s t _ u v hfits (SameData.refl s) hu huv h
  | none =>
    have hamp := strchrAt_none value AMPERSAND hfound
    simp only [hfound, Option.getD_none, true_and, Option.isSome_none, Bool.false_or,
      Option.map_none] at h
    by_cases hz : f.val + (cstr value).length < s.buf.length
    · rw [if_pos hz] at h
      exact absurd h (habort s)
    rw [if_neg hz] at h
    have hnul : NUL ∉ value := by
      apply no_nul_of_cstr_length
      rw [hvalue, List.length_drop] at *
      omega
    rw [cstr_of_no_nul value hnul] at h hamp
    have hplain : ∀ a ∈ value, a ≠ NUL ∧ a ≠ AMPERSAND := by
      intro a ha
      exact ⟨fun h0 => hnul (h0 ▸ ha), fun h1 => hamp (h1 ▸ ha)⟩
    have hopen : s.allDataRead = false := hfits.open_data
    by_cases hg : f.storage = MG_FORM_FIELD_STORAGE_GET
    · rw [if_pos hg] at h
      obtain ⟨key, hkey⟩ : ∃ key, key = if 0 < f.getBlock then [] else s.buf.take f.keylen := ⟨_, rfl⟩
      rw [← hkey] at h
      have hsame := urlEncodedFieldGet_same env hread key value value.length s
      by_cases hr : (urlEncodedFieldGet env key value value.length s).1.1 =
          MG_FORM_FIELD_HANDLE_ABORT
      · rw [if_pos hr] at h
        exact absurd h (habort _)
      · rw [if_neg hr, hopen] at h
        have hint : value.length < 2 ^ 31 := by
          rw [hvalue, List.length_drop]
          exact bufLen_int ((Nat.sub_le _ _).trans hfits.buf_le)
        obtain ⟨htrim, habove⟩ := urlEncodedFieldGet_trims env key value value.length s hint hr
        rw [htrim] at h
        apply blockEnd_more env hread f _ s _ t _ hfits hsame _ _ _ h
        · rw [← hvalue]
          exact hplain
        · rw [← hvalue]
          exact fun _ => ⟨hg, habove⟩
        · rw [← hvalue]
          by_cases hlt : trimValue value value.length < value.length
          · exact Or.inr ⟨hg, trimValue_cut value hplain hlt⟩
          · exact Or.inl (List.drop_eq_nil_of_le (by omega))
    · rw [if_neg hg, hopen] at h
      apply blockEnd_more env hread f f s s t _ hfits (SameData.refl s) _ _ _ h
      · rw [← hvalue]
        exact hplain
      · exact fun hg' => absurd hg' hg
      · rw [← hvalue]
        exact Or.inl (List.drop_eq_nil_of_le (Nat.le_refl _))

theorem fieldsStep_move (p t : FieldsAt W) (hfits : p.Fits) (h : fieldsStep env p = .inl t) :
    FieldsMove unread p t ∧ t.Fits := by
  cases p with
  | field s => exact fieldStep_move env hread s t hfits h
  | block f s => exact blockStep_move env hread f s t hfits h

end

end CivetWeb
