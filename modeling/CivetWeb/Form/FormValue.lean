import CivetWeb.Form.FieldsMove

namespace CivetWeb

/-- A url encoded value: bytes above the space other than `&`, and escapes of two hexadecimal digits
other than that of a NUL. -/
inductive FormValue : List Byte → Prop where
  | nil : FormValue []
  | byte (c : Byte) (v : List Byte) : SP < c → c ≠ AMPERSAND → c ≠ PERCENT → FormValue v →
      FormValue (c :: v)
  | escape (a b : Byte) (v : List Byte) : isxdigit a = true → isxdigit b = true →
      ¬ (a = 48 ∧ b = 48) → FormValue v → FormValue (PERCENT :: a :: b :: v)

/-- The text that a value stands for. -/
def formDecode : List Byte → List Byte
  | [] => []
  | c :: v =>
    match v with
    | a :: b :: rest =>
      if c = PERCENT then hexByte a b :: formDecode rest
      else (if c = PLUS then SP else c) :: formDecode (a :: b :: rest)
    | [a] => (if c = PLUS then SP else c) :: formDecode [a]
    | [] => [if c = PLUS then SP else c]

theorem formDecode_byte (c : Byte) (v : List Byte) (hc : c ≠ PERCENT) :
    formDecode (c :: v) = (if c = PLUS then SP else c) :: formDecode v := by
  match v with
  | [] => rfl
  | [_] => rfl
  | a :: b :: rest => exact if_neg hc

theorem formDecode_escape (a b : Byte) (v : List Byte) :
    formDecode (PERCENT :: a :: b :: v) = hexByte a b :: formDecode v := if_pos rfl

theorem isxdigit_plain : ∀ c, isxdigit c = true → c ≠ NUL ∧ c ≠ AMPERSAND ∧ c ≠ PERCENT :=
  byte_all _ (by decide +kernel)

theorem above_space_ne_nul (c : Byte) (hc : SP < c) : c ≠ NUL := by
  rintro rfl
  exact absurd hc (by decide)

theorem FormValue.bytes (v : List Byte) (h : FormValue v) : ∀ c ∈ v, SP < c ∧ c ≠ AMPERSAND := by
  induction h with
  | nil => simp
  | byte c v hc hamp _ _ ih => exact List.forall_mem_cons.mpr ⟨⟨hc, hamp⟩, ih⟩
  | escape a b v ha hb _ _ ih =>
    refine List.forall_mem_cons.mpr ⟨by decide, ?_⟩
    refine List.forall_mem_cons.mpr ⟨⟨isxdigit_above a ha, (isxdigit_plain a ha).2.1⟩, ?_⟩
    exact List.forall_mem_cons.mpr ⟨⟨isxdigit_above b hb, (isxdigit_plain b hb).2.1⟩, ih⟩

theorem FormValue.plain (v : List Byte) (h : FormValue v) :
    ∀ c ∈ v, c ≠ NUL ∧ c ≠ AMPERSAND := by
  intro c hc
  obtain ⟨habove, hamp⟩ := FormValue.bytes v h c hc
  exact ⟨above_space_ne_nul c habove, hamp⟩

theorem formDecode_append (u v : List Byte) (h : FormValue u) :
    formDecode (u ++ v) = formDecode u ++ formDecode v := by
  induction h with
  | nil => rfl
  | byte c u _ _ hp _ ih =>
    rw [List.cons_append, formDecode_byte c _ hp, formDecode_byte c u hp, ih, List.cons_append]
  | escape a b u _ _ _ _ ih =>
    rw [List.cons_append, List.cons_append, List.cons_append, formDecode_escape,
      formDecode_escape, ih, List.cons_append]

theorem formDecode_length_le (v : List Byte) (h : FormValue v) :
    (formDecode v).length ≤ v.length := by
  induction h with
  | nil => rfl
  | byte c v _ _ hp _ ih =>
    rw [formDecode_byte c v hp]
    simpa using ih
  | escape a b v _ _ _ _ ih =>
    rw [formDecode_escape]
    simp only [List.length_cons]
    omega

theorem decodeByte_form : ∀ c, SP < c →
    decodeByte true c = some (if c = PLUS then SP else c) :=
  byte_all _ (by decide +kernel)

/-- `mg_url_decode` gives the text that a value stands for, where it has room for it. -/
theorem urlDecodeLoop_form (room : Nat) (v : List Byte) (h : FormValue v)
    (hroom : (formDecode v).length ≤ room) :
    urlDecodeLoop true room v = some (formDecode v) := by
  induction h generalizing room with
  | nil => cases room <;> rfl
  | byte c v hc _ hp _ ih =>
    rw [formDecode_byte c v hp] at hroom ⊢
    obtain ⟨room, rfl⟩ : ∃ k, room = k + 1 := ⟨room - 1, by simp at hroom; omega⟩
    rw [urlDecodeLoop_copy true room c v (fun h => hp h.1), decodeByte_form c hc,
      ih room (by simpa using hroom)]
    rfl
  | escape a b v ha hb _ _ ih =>
    rw [formDecode_escape] at hroom ⊢
    obtain ⟨room, rfl⟩ : ∃ k, room = k + 1 := ⟨room - 1, by simp at hroom; omega⟩
    rw [urlDecodeLoop, if_pos ⟨rfl, ha, hb⟩, ih room (by simpa using hroom)]
    rfl

theorem mgUrlDecode_form (v : List Byte) (dstLen : Nat) (h : FormValue v)
    (hlen : (formDecode v).length < dstLen) : mgUrlDecode v dstLen true = some (formDecode v) :=
  urlDecodeLoop_form (dstLen - 1) v h (by omega)

/-- The beginning of a value is decoded wherever it is cut, as its bytes are above the space. -/
theorem urlDecodeLoop_front (v : List Byte) (h : FormValue v) (k : Nat) :
    ∃ d, urlDecodeLoop true k (v.take k) = some d := by
  apply Option.isSome_iff_exists.mp
  rw [urlDecodeLoop_isSome k (v.take k) (List.length_take_le k v)]
  exact fun c hc => (FormValue.bytes v h c (List.mem_of_mem_take hc)).1

/-- The first bytes of a value, as many as its length is as an `int`, decode to its text if that is all of them,
and there is room. -/
theorem urlDecodeLoop_int_iff (room : Nat) (v : List Byte) (h : FormValue v) :
    urlDecodeLoop true room (v.take (intLength v.length)) = some (formDecode v) ↔
      v.length < 2 ^ 31 ∧ (formDecode v).length ≤ room := by
  by_cases hint : v.length < 2 ^ 31
  · rw [intLength_of_lt hint, List.take_length, and_iff_right hint]
    exact ⟨urlDecodeLoop_le_room true room v _, urlDecodeLoop_form room v h⟩
  · refine iff_of_false (fun hd => ?_) fun hd => hint hd.1
    have hshort := intLength_of_ge (Nat.le_of_not_lt hint)
    obtain ⟨hle, -, -⟩ := urlDecodeLoop_lengths room _ _ hd
    obtain ⟨-, hge, -⟩ := urlDecodeLoop_lengths _ v _ (urlDecodeLoop_form _ v h (Nat.le_refl _))
    rw [List.length_take] at hle
    omega

/-- The first bytes of a text are a value, as many as an `int` holds: they are decoded. -/
theorem mgUrlDecodeInt_short (text : List Byte) (n : Nat) (hint : n < 2 ^ 31) (h : FormValue (text.take n)) :
    mgUrlDecodeInt text (sizeToInt n) (sizeToInt n + 1) true = some (formDecode (text.take n)) := by
  have hlen := formDecode_length_le _ h
  rw [List.length_take] at hlen
  rw [mgUrlDecodeInt_whole, intLength_of_lt hint, mgUrlDecode_form _ _ h (by omega)]

/-- A value that other text follows is decoded, and completely if an `int` holds its length. -/
theorem mgUrlDecodeInt_value (v tail : List Byte) (h : FormValue v) :
    ∃ d, mgUrlDecodeInt (v ++ tail) (sizeToInt v.length) (sizeToInt v.length + 1) true = some d ∧
      (d = formDecode v ↔ v.length < 2 ^ 31) := by
  obtain ⟨d, hd⟩ := urlDecodeLoop_front v h (intLength v.length)
  have hwhole := urlDecodeLoop_int_iff (intLength v.length) v h
  rw [hd, Option.some.injEq] at hwhole
  refine ⟨d, ?_, hwhole.trans ⟨And.left, fun hint => ⟨hint, ?_⟩⟩⟩
  · rw [mgUrlDecodeInt, urlDecodeRoom_whole, ← intLength, List.take_append_of_le_length (intLength_le v.length), hd]
  · rw [intLength_of_lt hint]
    exact formDecode_length_le v h

theorem hexToI_digit : ∀ a, isxdigit a = true →
    hexToI (tolower a) < 16 ∧ (hexToI (tolower a) = 0 → a = 48) :=
  byte_all _ (by decide +kernel)

theorem nibbles_eq_zero : ∀ x y : Fin 16,
    (UInt8.ofNat x.val <<< 4) ||| UInt8.ofNat y.val = 0 → x.val = 0 ∧ y.val = 0 := by
  decide +kernel

theorem hexByte_ne_nul (a b : Byte) (ha : isxdigit a = true) (hb : isxdigit b = true)
    (hne : ¬ (a = 48 ∧ b = 48)) : hexByte a b ≠ NUL := by
  obtain ⟨halt, hazero⟩ := hexToI_digit a ha
  obtain ⟨hblt, hbzero⟩ := hexToI_digit b hb
  rw [UInt8.lt_iff_toNat_lt] at halt hblt
  intro hz
  obtain ⟨hx, hy⟩ := nibbles_eq_zero ⟨_, halt⟩ ⟨_, hblt⟩ (by simpa [hexByte] using hz)
  exact hne ⟨hazero (UInt8.toNat_inj.mp hx), hbzero (UInt8.toNat_inj.mp hy)⟩

theorem formDecode_no_nul (v : List Byte) (h : FormValue v) : NUL ∉ formDecode v := by
  induction h with
  | nil => simp [formDecode]
  | byte c v hc _ hp _ ih =>
    have hne := above_space_ne_nul c hc
    have hsp : NUL ≠ SP := by decide
    rw [formDecode_byte c v hp, List.mem_cons, not_or]
    refine ⟨?_, ih⟩
    split_ifs
    · exact hsp
    · exact hne.symm
  | escape a b v ha hb hne _ ih =>
    rw [formDecode_escape, List.mem_cons, not_or]
    exact ⟨(hexByte_ne_nul a b ha hb hne).symm, ih⟩

/-- Bytes that cannot start an escape do not bear on how the bytes behind them are trimmed. -/
theorem trimValue_prefix (u v : List Byte)
    (hu : ∀ i < u.length, u.length ≤ i + 2 → u.getD i NUL ≠ PERCENT) :
    trimValue (u ++ v) (u ++ v).length = u.length + trimValue v v.length := by
  have hleft : ∀ i < u.length, (u ++ v).getD i NUL = u.getD i NUL := by
    intro i hi
    exact List.getD_append _ _ _ _ hi
  have hright : ∀ k, (u ++ v).getD (u.length + k) NUL = v.getD k NUL := by
    intro k
    rw [List.getD_append_right _ _ _ _ (by omega), Nat.add_sub_cancel_left]
  have hlen : (u ++ v).length = u.length + v.length := List.length_append
  unfold trimValue
  rw [hlen]
  by_cases hv2 : 2 ≤ v.length
  · have h2 : u.length + v.length - 2 = u.length + (v.length - 2) := by omega
    have h1 : u.length + v.length - 1 = u.length + (v.length - 1) := by omega
    have hle2 : 2 ≤ u.length + v.length := by omega
    have hle1 : 1 ≤ u.length + v.length := by omega
    have hle1' : 1 ≤ v.length := by omega
    simp only [h2, h1, hright, hle2, hle1, hle1', hv2, true_and]
    split_ifs <;> omega
  · have hno : ¬ (2 ≤ v.length ∧ v.getD (v.length - 2) NUL = PERCENT) := fun h => hv2 h.1
    have hno' : ¬ (2 ≤ u.length + v.length ∧
        (u ++ v).getD (u.length + v.length - 2) NUL = PERCENT) := by
      rintro ⟨hle, h⟩
      rw [hleft _ (by omega)] at h
      exact hu _ (by omega) (by omega) h
    rw [if_neg hno, if_neg hno']
    by_cases hv1 : 1 ≤ v.length
    · have h1 : u.length + v.length - 1 = u.length + (v.length - 1) := by omega
      have hle1 : 1 ≤ u.length + v.length := by omega
      simp only [h1, hright, hle1, hv1, true_and]
      split_ifs <;> omega
    · have hno1 : ¬ (1 ≤ u.length + v.length ∧
          (u ++ v).getD (u.length + v.length - 1) NUL = PERCENT) := by
        rintro ⟨hle, h⟩
        rw [hleft _ (by omega)] at h
        exact hu _ (by omega) (by omega) h
      rw [if_neg hno1, if_neg (fun h => hv1 h.1)]

/-- What lies in front of the end of a value does not bear on how it is trimmed. -/
theorem trimValue_append (v w : List Byte) :
    trimValue (v ++ w) v.length = trimValue v v.length := by
  unfold trimValue
  by_cases h0 : v = []
  · simp [h0]
  have hpos := List.length_pos_of_ne_nil h0
  rw [List.getD_append _ _ _ _ (by omega), List.getD_append _ _ _ _ (by omega)]

/-- A block of a value is trimmed to a value, and what is left over starts one. -/
theorem FormValue.trim (value : List Byte) (h : FormValue value) (v z : List Byte)
    (hv : value = v ++ z) :
    FormValue (v.take (trimValue v v.length)) ∧ FormValue (v.drop (trimValue v v.length) ++ z) := by
  induction h generalizing v with
  | nil =>
    obtain ⟨rfl, rfl⟩ := List.append_eq_nil_iff.mp hv.symm
    exact ⟨FormValue.nil, FormValue.nil⟩
  | byte c w hc hamp hp hw ih =>
    cases v with
    | nil =>
      rw [List.nil_append] at hv
      exact ⟨FormValue.nil, hv ▸ FormValue.byte c w hc hamp hp hw⟩
    | cons d v =>
      rw [List.cons_append, List.cons.injEq] at hv
      obtain ⟨rfl, hrest⟩ := hv
      obtain ⟨htake, hdrop⟩ := ih v hrest
      have htrim : trimValue (c :: v) (c :: v).length = 1 + trimValue v v.length := by
        apply trimValue_prefix [c] v
        intro i hi _
        obtain rfl : i = 0 := by simpa using hi
        exact hp
      rw [htrim, Nat.add_comm, List.take_succ_cons, List.drop_succ_cons]
      exact ⟨FormValue.byte c _ hc hamp hp htake, hdrop⟩
  | escape a b w ha hb hne hw ih =>
    have hap := (isxdigit_plain a ha).2.2
    have hbp := (isxdigit_plain b hb).2.2
    have hesc := FormValue.escape a b w ha hb hne hw
    match v with
    | [] => exact ⟨FormValue.nil, hv ▸ hesc⟩
    | [c] =>
      obtain ⟨rfl, rfl⟩ : PERCENT = c ∧ a :: b :: w = z := by simpa using hv
      exact ⟨FormValue.nil, hesc⟩
    | [c, d] =>
      obtain ⟨rfl, rfl, rfl⟩ : PERCENT = c ∧ a = d ∧ b :: w = z := by simpa using hv
      exact ⟨FormValue.nil, hesc⟩
    | c :: d :: e :: v =>
      obtain ⟨rfl, rfl, rfl, hrest⟩ : PERCENT = c ∧ a = d ∧ b = e ∧ w = v ++ z := by simpa using hv
      obtain ⟨htake, hdrop⟩ := ih v hrest
      have htrim : trimValue (PERCENT :: a :: b :: v) (PERCENT :: a :: b :: v).length =
          3 + trimValue v v.length := by
        apply trimValue_prefix [PERCENT, a, b] v
        intro i hi hi'
        simp only [List.length_cons, List.length_nil] at hi hi'
        obtain rfl | rfl : i = 1 ∨ i = 2 := by omega
        · exact hap
        · exact hbp
      rw [htrim, Nat.add_comm, List.take_succ_cons, List.take_succ_cons, List.take_succ_cons]
      exact ⟨FormValue.escape a b _ ha hb hne htake, hdrop⟩

theorem FormValue.not_cut (v : List Byte) (h : FormValue v) : ¬ CutEscape v := by
  rintro (rfl | ⟨x, -, -, rfl⟩)
  · cases h with
    | byte _ _ _ _ hp _ => exact hp rfl
  · cases h with
    | byte _ _ _ _ hp _ => exact hp rfl

theorem FormValue.trim_whole (v : List Byte) (h : FormValue v) : trimValue v v.length = v.length := by
  by_contra hne
  have hlt : trimValue v v.length < v.length := by
    have := trimValue_le v v.length
    omega
  have hrest := (FormValue.trim v h v [] (by simp)).2
  rw [List.append_nil] at hrest
  exact FormValue.not_cut _ hrest (trimValue_cut v (FormValue.plain v h) hlt)

end CivetWeb
