import CivetWeb.Form.FieldsHalt

namespace CivetWeb

/-- A body, and what `field_found` is going to answer. -/
structure Feed where
  body : List Byte
  answers : List UInt32

def MG_FORM_FIELD_HANDLE_GET : UInt32 := 0x1

/-- A client whose reads fill the buffer and whose `field_get` always wants more. -/
def feedHandler : FormHandler Feed where
  mgRead len w := (some ⟨w.body.take len, by simp⟩, { w with body := w.body.drop len })
  fieldFound _ _ w := ((w.answers.headD MG_FORM_FIELD_STORAGE_SKIP, []),
    { w with answers := w.answers.tail })
  fieldGet _ _ _ w := (MG_FORM_FIELD_HANDLE_GET, w)
  fieldStore _ _ w := (MG_FORM_FIELD_HANDLE_GET, w)
  hasGet := true
  hasStore := true
  mgMalloc _ w := (true, w)
  mgFopen _ w := (false, w)
  fwrite _ _ w := ((0, true), w)
  mgFclose w := (0, w)
  removeBadFile _ w := w

theorem feedHandler_reader : BodyReader feedHandler Feed.body where
  read := by
    intro len w r w' h
    cases h
    exact (List.take_append_drop len w.body).symm
  more := by
    intro len w r w' h hlen hr
    cases h
    rcases List.take_eq_nil_iff.mp hr with h | h
    · omega
    · exact h
  found := fun _ _ _ => rfl
  get := fun _ _ _ _ => rfl
  store := fun _ _ _ => rfl
  malloc := fun _ _ => rfl
  fopen := fun _ _ => rfl
  fwrite := fun _ _ _ => rfl
  fclose := fun _ => rfl
  remove := fun _ _ => rfl

theorem feedHandler_fills : FillReader feedHandler Feed.body where
  toBodyReader := feedHandler_reader
  fill := fun _ _ => ⟨_, rfl, rfl⟩

/-- A body that ends in an escape cut short, with answers that skip all fields but the last. -/
inductive EscapeFeed : List UInt32 → List Byte → Prop where
  | last (key value tail : List Byte) : FieldName key →
      (∀ a ∈ value, SP < a ∧ a ≠ AMPERSAND) → CutEscape tail →
      EscapeFeed [MG_FORM_FIELD_STORAGE_GET] (key ++ EQUALS :: (value ++ tail))
  | next (answers : List UInt32) (key value rest : List Byte) : FieldName key →
      (∀ a ∈ value, a ≠ NUL ∧ a ≠ AMPERSAND) → EscapeFeed answers rest →
      EscapeFeed (MG_FORM_FIELD_STORAGE_SKIP :: answers) (key ++ EQUALS :: (value ++ AMPERSAND :: rest))

theorem EndsInEscape.feed (body : List Byte) (h : EndsInEscape body) :
    ∃ answers, EscapeFeed answers body := by
  induction h with
  | last key value tail hname hplain hcut => exact ⟨_, EscapeFeed.last key value tail hname hplain hcut⟩
  | next key value rest hname hplain _ ih =>
    obtain ⟨answers, hrest⟩ := ih
    exact ⟨_, EscapeFeed.next answers key value rest hname hplain hrest⟩

/-- What stands behind the `=` of a field that is going to be skipped, or of the last one. -/
inductive EscapeValue : UInt32 → List UInt32 → List Byte → Prop where
  | get (answers : List UInt32) (value tail : List Byte) :
      (∀ a ∈ value, SP < a ∧ a ≠ AMPERSAND) → CutEscape tail →
      EscapeValue MG_FORM_FIELD_STORAGE_GET answers (value ++ tail)
  | skip (answers : List UInt32) (value rest : List Byte) :
      (∀ a ∈ value, a ≠ NUL ∧ a ≠ AMPERSAND) → EscapeFeed answers rest →
      EscapeValue MG_FORM_FIELD_STORAGE_SKIP answers (value ++ AMPERSAND :: rest)

theorem EscapeFeed.field (answers : List UInt32) (body : List Byte) (h : EscapeFeed answers body) :
    ∃ storage answers' key rest, answers = storage :: answers' ∧ body = key ++ EQUALS :: rest ∧
      FieldName key ∧ EscapeValue storage answers' rest := by
  cases h with
  | last key value tail hname hplain hcut =>
    exact ⟨_, _, key, _, rfl, rfl, hname, EscapeValue.get [] value tail hplain hcut⟩
  | next answers key value rest hname hplain hrest =>
    exact ⟨_, _, key, _, rfl, rfl, hname, EscapeValue.skip answers value rest hplain hrest⟩

/-- The states of a run on such a body. -/
def FieldsAt.Escaping (p : FieldsAt Feed) : Prop :=
  p.state.fpOpen = false ∧ p.Fits ∧
    match p with
    | .field s => EscapeFeed s.world.answers (FieldsAt.ahead Feed.body (.field s))
    | .block f s => EscapeValue f.storage s.world.answers (FieldsAt.ahead Feed.body (.block f s)) ∧
        (f.storage = MG_FORM_FIELD_STORAGE_GET → f.getBlock = 0 →
          (decodeKey (s.buf.take f.keylen)).isSome = true)

theorem fieldKey_feed (s : FormState Feed) (keylen : Nat) (keyDec : List Byte) (storage : UInt32)
    (answers : List UInt32) (hans : s.world.answers = storage :: answers)
    (hfound : strchrAt s.buf EQUALS = some keylen)
    (hdec : decodeKey (s.buf.take keylen) = some keyDec)
    (habort : storageAborts storage = false) (hstore : storage ≠ MG_FORM_FIELD_STORAGE_STORE) :
    fieldKey feedHandler s = .inl (.block ⟨keylen, storage, keylen + 1, 0⟩ { s with
      world := { s.world with answers := answers }
      fieldCount := s.fieldCount + 1
      path := []
      events := s.events ++ [.found (cstr keyDec) []] }) := by
  unfold fieldKey
  simp only [hfound, urlEncodedFieldFound, hdec, callFieldFound, feedHandler, hans,
    List.headD_cons, List.tail_cons, Bool.not_true, Bool.false_eq_true, and_false, if_false,
    habort, if_neg hstore]

theorem fieldStep_feed (s : FormState Feed) (h : (FieldsAt.field s).Escaping) :
    ∃ q, fieldStep feedHandler s = .inl q ∧ q.Escaping := by
  obtain ⟨hfp, ⟨hopen, hlen, -⟩, hbody⟩ := h
  simp only [FieldsAt.state] at hfp hopen hlen
  obtain ⟨storage, answers, key, rest, hans, hahead, hname, hvalue⟩ := EscapeFeed.field _ _ hbody
  simp only [FieldsAt.ahead] at hahead
  obtain ⟨w', buf, events, hstep, hbuf, hsum, hw, -⟩ := fieldStep_fills feedHandler
    feedHandler_fills s key rest hopen hlen hname.fits hahead
  have hans' : w'.answers = storage :: answers := by
    obtain hw | ⟨len, hw⟩ := hw <;> rw [hw] <;> exact hans
  have hfound : strchrAt buf EQUALS = some key.length := by
    rw [hbuf]
    exact strchrAt_append key _ EQUALS (by decide) hname.bytes
  have htake : buf.take key.length = key := by
    rw [hbuf, List.take_left]
  have hdecodes := hname.decodes
  rw [← decodeKey_of_lt (bufLen_int hname.fits.le)] at hdecodes
  obtain ⟨keyDec, hdec⟩ := Option.isSome_iff_exists.mp hdecodes
  have habort : storageAborts storage = false := by
    cases hvalue <;> decide
  have hstore : storage ≠ MG_FORM_FIELD_STORAGE_STORE := by
    cases hvalue <;> decide
  have hkey := fieldKey_feed { s with world := w', buf := buf, events := s.events ++ events }
    key.length keyDec storage answers hans' hfound ((congrArg decodeKey htake).trans hdec) habort hstore
  refine ⟨_, hstep.trans hkey, hfp, ⟨hopen, ?_, ?_⟩, ?_, ?_⟩
  · show buf.length ≤ MG_BUF_LEN - 1
    have hfits := hname.fits
    rw [hbuf, List.length_append, List.length_cons, List.length_take]
    omega
  · intro f u hfu
    cases hfu
    show key.length + 1 ≤ buf.length
    rw [hbuf]
    simp
  · have hrest : buf.drop (key.length + 1) ++ w'.body = rest := by
      have hdrop := congrArg (List.drop (key.length + 1)) hsum
      rw [List.drop_append_of_le_length (by rw [hbuf]; simp), ← List.drop_drop (l := key ++ _),
        List.drop_left] at hdrop
      exact hdrop
    show EscapeValue storage answers (buf.drop (key.length + 1) ++ w'.body)
    rw [hrest]
    exact hvalue
  · intro _ _
    show (decodeKey (buf.take key.length)).isSome = true
    rw [htake]
    exact hdecodes

theorem EscapeValue.ne_nil (storage : UInt32) (answers : List UInt32) (value : List Byte)
    (h : EscapeValue storage answers value) : value ≠ [] := by
  cases h with
  | get _ value tail _ hcut =>
    rcases hcut with hcut | ⟨x, -, -, hcut⟩ <;> simp [hcut]
  | skip _ value rest _ _ => simp

/-- Behind a block the value goes on in the next one. -/
theorem blockNext_feed (f : FieldLocals) (next : Nat) (s : FormState Feed) (value : List Byte)
    (hopen : s.allDataRead = false) (hfp : s.fpOpen = false)
    (hlen : (s.buf.drop next).length < MG_BUF_LEN - 1)
    (hvalue : EscapeValue f.storage s.world.answers value)
    (hahead : s.buf.drop next ++ s.world.body = value)
    (hkey : f.storage = MG_FORM_FIELD_STORAGE_GET → f.getBlock ≠ 0) :
    ∃ q, blockNext feedHandler f next s = .inl q ∧ q.Escaping := by
  have hne : s.buf.drop next ++ s.world.body ≠ [] := by
    rw [hahead]
    exact EscapeValue.ne_nil _ _ value hvalue
  obtain ⟨w', buf, hnext, hbuf, hsum, len, hw⟩ := blockNext_fills feedHandler feedHandler_fills
    f next s hopen hlen hne
  refine ⟨_, hnext, hfp, ⟨hopen, ?_, ?_⟩, ?_, ?_⟩
  · show buf.length ≤ MG_BUF_LEN - 1
    rw [hbuf]
    exact List.length_take_le _ _
  · intro g u hgu
    cases hgu
    exact Nat.zero_le _
  · have hans : w'.answers = s.world.answers := by
      rw [hw]
      rfl
    show EscapeValue f.storage w'.answers (buf.drop 0 ++ w'.body)
    rw [List.drop_zero, hsum, hahead, hans]
    exact hvalue
  · intro hg hz
    exact absurd hz (hkey hg)

/-- A skipped value is gone through block by block, up to the field behind it. -/
theorem blockStep_skip (f : FieldLocals) (s : FormState Feed) (value rest : List Byte)
    (hfp : s.fpOpen = false) (hfits : (FieldsAt.block f s).Fits)
    (hskip : f.storage = MG_FORM_FIELD_STORAGE_SKIP)
    (hahead : s.buf.drop f.val ++ s.world.body = value ++ AMPERSAND :: rest)
    (hplain : ∀ a ∈ value, a ≠ NUL ∧ a ≠ AMPERSAND)
    (hrest : EscapeFeed s.world.answers rest) :
    ∃ q, blockStep feedHandler f s = .inl q ∧ q.Escaping := by
  have hopen : s.allDataRead = false := hfits.open_data
  have hlen : s.buf.length ≤ MG_BUF_LEN - 1 := hfits.buf_le
  have hval := hfits.val_le f s rfl
  have hget : f.storage ≠ MG_FORM_FIELD_STORAGE_GET := by
    rw [hskip]
    decide
  by_cases hin : value.length < (s.buf.drop f.val).length
  · -- the end of the value is in the buffer
    obtain ⟨z, hz, hbody⟩ := Scan.prefix_cut value (AMPERSAND :: rest) (s.buf.drop f.val) s.world.body
      hahead.symm (Nat.le_of_lt hin)
    obtain ⟨y, rfl⟩ : ∃ y, z = AMPERSAND :: y := by
      cases z with
      | nil =>
        rw [hz] at hin
        simp at hin
      | cons a y =>
        simp only [List.cons_append, List.cons.injEq] at hbody
        exact ⟨y, by rw [hbody.1]⟩
    have hfound := strchrAt_append value y AMPERSAND (by decide) hplain
    rw [← hz] at hfound
    refine ⟨.field { s with buf := s.buf.drop (f.val + (value.length + 1)) }, ?_, hfp,
      ⟨hopen, ?_, ?_⟩, ?_⟩
    · unfold blockStep
      simp only [hfound, reduceCtorEq, false_and, if_false, if_neg hget, Option.getD_some,
        Option.isSome_some, Bool.true_or, Option.map_some, blockEnd, if_true]
      rw [writeStore_closed _ _ _ _ hfp, fieldEnd_closed _ _ _ hopen hfp]
    · simp only [FieldsAt.state, List.length_drop]
      omega
    · intro g u hgu
      cases hgu
    · show EscapeFeed s.world.answers (s.buf.drop (f.val + (value.length + 1)) ++ s.world.body)
      have hdrop : s.buf.drop (f.val + (value.length + 1)) = y := by
        rw [← List.drop_drop, hz, ← List.drop_drop, List.drop_left]
        rfl
      have hy : rest = y ++ s.world.body := by simpa using hbody
      rw [hdrop, ← hy]
      exact hrest
  · obtain ⟨z, hz, hbody⟩ := Scan.prefix_cut (s.buf.drop f.val) s.world.body value (AMPERSAND :: rest)
      hahead (by omega)
    have hv : ∀ a ∈ s.buf.drop f.val, a ≠ NUL ∧ a ≠ AMPERSAND := by
      intro a ha
      exact hplain a (by rw [hz]; exact List.mem_append_left z ha)
    have hnone : strchrAt (s.buf.drop f.val) AMPERSAND = none :=
      strchrAt_eq_none _ _ (fun h => (hv _ h).2 rfl)
    have hcstr := cstr_of_no_nul (s.buf.drop f.val) (fun h => (hv _ h).1 rfl)
    have hwhole : f.val + (s.buf.drop f.val).length = s.buf.length := by
      rw [List.length_drop]
      omega
    have hnil : s.buf.drop (f.val + (s.buf.drop f.val).length) = [] := by
      rw [hwhole, List.drop_length]
    obtain ⟨q, hq, hesc⟩ := blockNext_feed f (f.val + (s.buf.drop f.val).length) s
      (z ++ AMPERSAND :: rest) hopen hfp (by rw [hnil]; decide)
      (hskip ▸ EscapeValue.skip _ z rest
        (fun a ha => hplain a (by rw [hz]; exact List.mem_append_right _ ha)) hrest)
      (by rw [hnil, hbody, List.nil_append]) (fun h => absurd h hget)
    refine ⟨q, ?_, hesc⟩
    unfold blockStep
    simp only [hnone, hcstr, hopen, Option.getD_none, hwhole, Nat.lt_irrefl, and_false, if_false,
      if_neg hget, Option.isSome_none, Bool.or_self, Option.map_none, blockEnd,
      Bool.false_eq_true]
    rw [writeStore_closed _ _ _ _ hfp, ← hwhole]
    exact hq

/-- What a block of the last value has before the escape at its end is trimmed at that escape. -/
theorem trimValue_escape (v z value tail : List Byte) (h : v ++ z = value ++ tail)
    (hcut : CutEscape tail) : trimValue v v.length ≤ value.length := by
  have hlen : v.length + z.length = value.length + tail.length := by
    rw [← List.length_append, h, List.length_append]
  by_cases hin : v.length ≤ value.length
  · exact (trimValue_le v v.length).trans hin
  obtain ⟨x, hx, hxz⟩ := Scan.prefix_cut value tail v z h.symm (by omega)
  have hxlen : v.length = value.length + x.length := by rw [hx, List.length_append]
  have hget : ∀ k, v.getD (value.length + k) NUL = x.getD k NUL := by
    intro k
    rw [hx, List.getD_append_right _ _ _ _ (by omega)]
    congr 1
    omega
  have hstart : x.getD 0 NUL = PERCENT ∧ x.length ≤ 2 := by
    cases x with
    | nil => simp at hxlen; omega
    | cons a x =>
      obtain rfl | ⟨b, -, -, rfl⟩ := hcut
      · simp only [List.cons_append, List.cons.injEq, List.nil_eq, List.append_eq_nil_iff] at hxz
        simp [hxz.1, hxz.2.1]
      · simp only [List.cons_append, List.cons.injEq] at hxz
        have hxl := congrArg List.length hxz.2
        simp only [List.length_singleton, List.length_append] at hxl
        refine ⟨by simp [hxz.1], ?_⟩
        simp only [List.length_cons]
        omega
  have hpercent := hget 0
  rw [hstart.1] at hpercent
  unfold trimValue
  by_cases h2 : 2 ≤ v.length ∧ v.getD (v.length - 2) NUL = PERCENT
  · rw [if_pos h2]
    omega
  · have hone : x.length = 1 := by
      by_contra hx2
      have hi : v.length - 2 = value.length + 0 := by omega
      exact h2 ⟨by omega, by rw [hi]; exact hpercent⟩
    have hi : v.length - 1 = value.length + 0 := by omega
    rw [if_neg h2, if_pos ⟨by omega, by rw [hi]; exact hpercent⟩]
    omega

theorem urlEncodedFieldGet_feed (key value : List Byte) (n : Nat) (s : FormState Feed)
    (hn : n < 2 ^ 31) (hkey : (decodeKey key).isSome = true)
    (hvalue : ∀ a ∈ value.take (trimValue value n), SP < a) :
    ∃ events, urlEncodedFieldGet feedHandler key value n s =
      ((MG_FORM_FIELD_HANDLE_GET, trimValue value n), { s with events := events }) := by
  obtain ⟨keyDec, hk⟩ := Option.isSome_iff_exists.mp hkey
  have hlen : (value.take (trimValue value n)).length < trimValue value n + 1 := by
    rw [List.length_take]
    omega
  obtain ⟨valueDec, hv⟩ := Option.isSome_iff_exists.mp
    ((mgUrlDecode_isSome _ (trimValue value n + 1) hlen).mpr hvalue)
  unfold urlEncodedFieldGet
  simp only [feedHandler, Bool.not_true, Bool.false_eq_true, if_false, mgUrlDecodeInt_whole,
    intLength_of_lt ((trimValue_le value n).trans_lt hn), hk, hv]
  exact ⟨_, rfl⟩

/-- The last value is gone through block by block, and never left. -/
theorem blockStep_get (f : FieldLocals) (s : FormState Feed) (value tail : List Byte)
    (hfp : s.fpOpen = false) (hfits : (FieldsAt.block f s).Fits)
    (hget : f.storage = MG_FORM_FIELD_STORAGE_GET)
    (hahead : s.buf.drop f.val ++ s.world.body = value ++ tail)
    (hplain : ∀ a ∈ value, SP < a ∧ a ≠ AMPERSAND) (hcut : CutEscape tail)
    (hkey : f.getBlock = 0 → (decodeKey (s.buf.take f.keylen)).isSome = true) :
    ∃ q, blockStep feedHandler f s = .inl q ∧ q.Escaping := by
  have hopen : s.allDataRead = false := hfits.open_data
  have hval := hfits.val_le f s rfl
  obtain ⟨v, hv⟩ : ∃ v, v = s.buf.drop f.val := ⟨_, rfl⟩
  rw [← hv] at hahead
  have hbytes : ∀ a ∈ v, a ≠ NUL ∧ a ≠ AMPERSAND := by
    intro a ha
    have hmem : a ∈ value ++ tail := hahead ▸ List.mem_append_left _ ha
    rcases List.mem_append.mp hmem with hm | hm
    · have habove := (hplain a hm).1
      refine ⟨?_, (hplain a hm).2⟩
      rintro rfl
      exact absurd habove (by decide)
    · obtain rfl | ⟨x, hx, hx', rfl⟩ := hcut
      · rw [List.mem_singleton.mp hm]
        decide
      · rcases List.mem_cons.mp hm with rfl | hm
        · decide
        · rw [List.mem_singleton.mp hm]
          exact ⟨hx, hx'⟩
  have hnone : strchrAt v AMPERSAND = none := strchrAt_eq_none _ _ (fun h => (hbytes _ h).2 rfl)
  have hcstr := cstr_of_no_nul v (fun h => (hbytes _ h).1 rfl)
  have hwhole : f.val + v.length = s.buf.length := by
    rw [hv, List.length_drop]
    omega
  obtain ⟨n, hn⟩ : ∃ n, n = trimValue v v.length := ⟨_, rfl⟩
  have hnle : n ≤ v.length := hn ▸ trimValue_le v v.length
  have hnval : n ≤ value.length := hn ▸ trimValue_escape v s.world.body value tail hahead hcut
  obtain ⟨x, hx, hxrest⟩ := Scan.prefix_cut (v.take n) (v.drop n ++ s.world.body) value tail
    (by rw [← List.append_assoc, List.take_append_drop, hahead])
    (by rw [List.length_take]; omega)
  have habove : ∀ a ∈ v.take n, SP < a := by
    intro a ha
    exact (hplain a (by rw [hx]; exact List.mem_append_left x ha)).1
  obtain ⟨key, hkeydef⟩ : ∃ key, key = if 0 < f.getBlock then [] else s.buf.take f.keylen := ⟨_, rfl⟩
  have hkeydec : (decodeKey key).isSome = true := by
    rw [hkeydef]
    by_cases hb : 0 < f.getBlock
    · rw [if_pos hb]
      rfl
    · rw [if_neg hb]
      exact hkey (by omega)
  obtain ⟨events, hcall⟩ := urlEncodedFieldGet_feed key v v.length s
    (bufLen_int (by have := hfits.buf_le; simp only [FieldsAt.state] at this; omega)) hkeydec
    (by rw [← hn]; exact habove)
  have hdrop : s.buf.drop (f.val + n) = v.drop n := by
    rw [← List.drop_drop, hv]
  have hshort : (v.drop n).length < MG_BUF_LEN - 1 := by
    have hle : v.length - n ≤ 2 := by
      rw [hn]
      unfold trimValue
      split_ifs <;> omega
    rw [List.length_drop]
    have : 2 < MG_BUF_LEN - 1 := by decide
    omega
  obtain ⟨q, hq, hesc⟩ := blockNext_feed { f with getBlock := f.getBlock + 1 } (f.val + n)
    { s with events := events } (x ++ tail) hopen hfp (by rw [hdrop]; exact hshort)
    (hget ▸ EscapeValue.get _ x tail
      (fun a ha => hplain a (by rw [hx]; exact List.mem_append_right _ ha)) hcut)
    (by rw [hdrop]; exact hxrest) (fun _ => Nat.succ_ne_zero _)
  refine ⟨q, ?_, hesc⟩
  rw [← hn] at hcall
  rw [blockStep_delivers feedHandler f s _ key v _ n hv.symm hget hkeydef.symm hnone hcstr hwhole
    hopen hcall (by decide) (by decide) hfp]
  exact hq

theorem fieldsStep_feed (p : FieldsAt Feed) (hp : p.Escaping) :
    ∃ q, fieldsStep feedHandler p = .inl q ∧ q.Escaping := by
  cases p with
  | field s => exact fieldStep_feed s hp
  | block f s =>
    obtain ⟨hfp, hfits, hvalue, hkey⟩ := hp
    obtain ⟨storage, hst⟩ : ∃ storage, storage = f.storage := ⟨_, rfl⟩
    obtain ⟨ahead, hahead⟩ : ∃ ahead, ahead = FieldsAt.ahead Feed.body (.block f s) := ⟨_, rfl⟩
    rw [← hst, ← hahead] at hvalue
    cases hvalue with
    | get _ value tail hplain hcut =>
      exact blockStep_get f s value tail hfp hfits hst.symm hahead.symm hplain hcut
        (hkey hst.symm)
    | skip _ value rest hplain hrest =>
      exact blockStep_skip f s value rest hfp hfits hst.symm hahead.symm hplain hrest

/-- On a body that ends in an escape cut short, some callbacks keep the loop running for ever. -/
theorem fieldsStep_stalls (body : List Byte) (h : EndsInEscape body) :
    ∃ answers, ¬ Machine.Halts (fieldsStep feedHandler) (.field (formInit ⟨body, answers⟩)) := by
  obtain ⟨answers, hfeed⟩ := EndsInEscape.feed body h
  refine ⟨answers, ?_⟩
  apply Machine.not_halts_of_stays (fieldsStep feedHandler) FieldsAt.Escaping fieldsStep_feed
  refine ⟨rfl, ⟨rfl, Nat.zero_le _, ?_⟩, hfeed⟩
  intro f s hfs
  cases hfs

/-- The loops over a url encoded body end, however it is cut into reads and whatever the callbacks
answer. -/
def UrlEncodedBodyEnds (body : List Byte) : Prop :=
  ∀ (W : Type) (env : FormHandler W) (unread : W → List Byte) (w : W),
    BodyReader env unread → unread w = body →
      Machine.Halts (fieldsStep env) (.field (formInit w))

/-- `mg_handle_form_request` gets to the end of a url encoded body exactly where it does not end
in an escape cut short. -/
theorem urlEncodedBody_ends (body : List Byte) :
    UrlEncodedBodyEnds body ↔ ¬ EndsInEscape body := by
  constructor
  · intro hall hesc
    obtain ⟨answers, hstall⟩ := fieldsStep_stalls body hesc
    exact hstall (hall Feed feedHandler Feed.body ⟨body, answers⟩ feedHandler_reader rfl)
  · intro hbody W env unread w hread hw
    exact fieldsStep_halts env unread hread w (hw ▸ hbody)

theorem urlEncodedBody_percent : ¬ UrlEncodedBodyEnds (ascii "a=100%") := by
  intro hall
  obtain ⟨answers, hstall⟩ := fieldsStep_stalls (ascii "a=100%")
    (EndsInEscape.last (ascii "a") (ascii "100") [PERCENT] ⟨by decide, by decide, by decide⟩
      (by decide) (Or.inl rfl))
  exact hstall (hall Feed feedHandler Feed.body ⟨_, answers⟩ feedHandler_reader rfl)

end CivetWeb
