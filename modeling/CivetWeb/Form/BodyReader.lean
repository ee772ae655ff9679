import CivetWeb.Form.UrlEncoded

namespace CivetWeb

/-- A handler whose `mg_read` hands out a finite body piece by piece: `unread` is what is left of it.
A read may fail, but it returns 0 only at the end; the callbacks do not read. -/
structure BodyReader {W : Type} (env : FormHandler W) (unread : W → List Byte) : Prop where
  read : ∀ len w r w', env.mgRead len w = (some r, w') → unread w = r.val ++ unread w'
  more : ∀ len w r w', env.mgRead len w = (some r, w') → 0 < len → r.val = [] → unread w = []
  found : ∀ key filename w, unread (env.fieldFound key filename w).2 = unread w
  get : ∀ key value n w, unread (env.fieldGet key value n w).2 = unread w
  store : ∀ path size w, unread (env.fieldStore path size w).2 = unread w
  malloc : ∀ size w, unread (env.mgMalloc size w).2 = unread w
  fopen : ∀ path w, unread (env.mgFopen path w).2 = unread w
  fwrite : ∀ data n w, unread (env.fwrite data n w).2 = unread w
  fclose : ∀ w, unread (env.mgFclose w).2 = unread w
  remove : ∀ path w, unread (env.removeBadFile path w) = unread w

section
variable {W : Type} (env : FormHandler W) (unread : W → List Byte)

/-- Neither the buffer nor the unread body differ. -/
structure SameData (s t : FormState W) : Prop where
  buf : t.buf = s.buf
  allDataRead : t.allDataRead = s.allDataRead
  unread : unread t.world = unread s.world

variable {unread}

theorem SameData.refl (s : FormState W) : SameData unread s s := ⟨rfl, rfl, rfl⟩

theorem SameData.trans {s t u : FormState W} (h : SameData unread s t) (h' : SameData unread t u) :
    SameData unread s u :=
  ⟨h'.buf.trans h.buf, h'.allDataRead.trans h.allDataRead, h'.unread.trans h.unread⟩

variable (hread : BodyReader env unread)
include hread

theorem callFieldFound_same (key filename : List Byte) (s : FormState W) :
    SameData unread s (callFieldFound env key filename s).2 := by
  unfold callFieldFound
  dsimp only
  split_ifs <;> exact ⟨rfl, rfl, hread.found key filename s.world⟩

theorem urlEncodedFieldFound_same (key : List Byte) (filename : Option (List Byte))
    (s : FormState W) : SameData unread s (urlEncodedFieldFound env key filename s).2 := by
  unfold urlEncodedFieldFound
  cases decodeKey key with
  | none => exact SameData.refl s
  | some keyDec =>
    cases filename with
    | none => exact callFieldFound_same env hread (cstr keyDec) [] s
    | some filename =>
      dsimp only
      cases decodeKey filename with
      | none => exact SameData.refl s
      | some filenameDec => exact callFieldFound_same env hread _ _ s

theorem callFieldGet_same (key value : List Byte) (n : Nat) (s : FormState W) :
    SameData unread s (callFieldGet env key value n s).2 :=
  ⟨rfl, rfl, hread.get (cstr key) value n s.world⟩

theorem urlEncodedFieldGet_same (key value : List Byte) (n : Nat) (s : FormState W) :
    SameData unread s (urlEncodedFieldGet env key value n s).2 := by
  have hm : SameData unread s { s with world := (env.mgMalloc (n + 1) s.world).2 } :=
    ⟨rfl, rfl, hread.malloc (n + 1) s.world⟩
  unfold urlEncodedFieldGet
  dsimp only
  split_ifs
  · exact hm
  · split
    · exact hm.trans (callFieldGet_same env hread _ _ _ _)
    · exact hm

theorem openStore_same (s : FormState W) : SameData unread s (openStore env s) :=
  ⟨rfl, rfl, hread.fopen s.path s.world⟩

theorem dropStore_same (s : FormState W) : SameData unread s (dropStore env s) :=
  ⟨rfl, rfl, (hread.remove s.path _).trans (hread.fclose s.world)⟩

theorem writeStore_same (data : List Byte) (n : Nat) (s : FormState W) :
    SameData unread s (writeStore env data n s) := by
  unfold writeStore
  have hw : SameData unread s { s with world := (env.fwrite data n s.world).2 } :=
    ⟨rfl, rfl, hread.fwrite data n s.world⟩
  dsimp only
  split_ifs
  · have hd := hw.trans (dropStore_same env hread _)
    exact ⟨hd.buf, hd.allDataRead, hd.unread⟩
  · exact ⟨rfl, rfl, hw.unread⟩
  · exact SameData.refl s

theorem closeStore_same (s : FormState W) : SameData unread s (closeStore env s).2 := by
  unfold closeStore
  dsimp only
  split_ifs
  · exact ⟨rfl, rfl, (hread.store _ _ _).trans (hread.fclose s.world)⟩
  · exact ⟨rfl, rfl, (hread.remove _ _).trans (hread.fclose s.world)⟩

/-- A fill moves the next bytes of the body into the buffer; it moves none only where
none are left. -/
theorem fillBuf_reads (s t : FormState W) (hlen : s.buf.length < MG_BUF_LEN - 1)
    (h : fillBuf env s = (true, t)) :
    ∃ r, t.buf = s.buf ++ r ∧ unread s.world = r ++ unread t.world ∧
      t.buf.length ≤ MG_BUF_LEN - 1 ∧ (r = [] → unread s.world = []) ∧
      t.allDataRead = (if r = [] then decide (s.buf = []) else s.allDataRead) := by
  unfold fillBuf at h
  cases hr : env.mgRead (MG_BUF_LEN - 1 - s.buf.length) s.world with
  | mk res w =>
    cases res with
    | none => simp [hr] at h
    | some r =>
      rw [hr] at h
      dsimp only at h
      by_cases hstop : r.val = [] ∧ s.allDataRead = true
      · rw [if_pos hstop] at h
        simp at h
      rw [if_neg hstop] at h
      cases h
      refine ⟨r.val, rfl, hread.read _ _ _ _ hr, ?_, hread.more _ _ _ _ hr (by omega), ?_⟩
      · have := r.property
        simp only [List.length_append]
        omega
      · split_ifs <;> rfl

end

/-- A reader that fills the buffer while bytes of the body remain. -/
structure FillReader {W : Type} (env : FormHandler W) (unread : W → List Byte) : Prop
    extends BodyReader env unread where
  fill : ∀ len w, ∃ r, (env.mgRead len w).1 = some r ∧ r.val = (unread w).take len

section
variable {W : Type} (env : FormHandler W) {unread : W → List Byte} (hfill : FillReader env unread)
include hfill

/-- The filled buffer holds as much of the rest of the body as there is room for. -/
theorem fillBuf_fills (s : FormState W) (hopen : s.allDataRead = false)
    (hlen : s.buf.length ≤ MG_BUF_LEN - 1) (hmore : s.buf ++ unread s.world ≠ []) :
    ∃ w' buf, fillBuf env s = (true, { s with
        world := w'
        buf := buf
        events := s.events ++ [.fill buf.length] }) ∧
      buf = (s.buf ++ unread s.world).take (MG_BUF_LEN - 1) ∧
      buf ++ unread w' = s.buf ++ unread s.world ∧
      w' = (env.mgRead (MG_BUF_LEN - 1 - s.buf.length) s.world).2 := by
  obtain ⟨r, hr, hval⟩ := hfill.fill (MG_BUF_LEN - 1 - s.buf.length) s.world
  obtain ⟨w', hw'⟩ : ∃ w', w' = (env.mgRead (MG_BUF_LEN - 1 - s.buf.length) s.world).2 := ⟨_, rfl⟩
  have hread : env.mgRead (MG_BUF_LEN - 1 - s.buf.length) s.world = (some r, w') := by
    rw [hw', ← hr]
  have hbuf : s.buf ++ r.val = (s.buf ++ unread s.world).take (MG_BUF_LEN - 1) := by
    rw [hval, List.take_append, List.take_of_length_le hlen]
  have hne : s.buf ++ r.val ≠ [] := by
    rw [hbuf]
    intro hnil
    rcases List.take_eq_nil_iff.mp hnil with h | h
    · exact absurd h (by decide)
    · exact hmore h
  have hstill : (if r.val = [] then decide (s.buf = []) else s.allDataRead) = s.allDataRead := by
    by_cases hr0 : r.val = []
    · rw [if_pos hr0, hopen, decide_eq_false_iff_not]
      intro hb
      exact hne (by rw [hr0, List.append_nil]; exact hb)
    · rw [if_neg hr0]
  refine ⟨w', s.buf ++ r.val, ?_, hbuf, ?_, hw'⟩
  · unfold fillBuf
    rw [hread]
    dsimp only
    rw [if_neg (by rw [hopen]; simp), hstill]
  · rw [List.append_assoc, ← hfill.read _ _ _ _ hread]

/-- With nothing buffered and nothing left to read, the end of the data is seen. -/
theorem fillBuf_end (s : FormState W) (hopen : s.allDataRead = false) (hbuf : s.buf = [])
    (hend : unread s.world = []) :
    ∃ w', fillBuf env s = (true, { s with
      world := w'
      allDataRead := true
      events := s.events ++ [.fill 0] }) := by
  obtain ⟨r, hr, hval⟩ := hfill.fill (MG_BUF_LEN - 1 - s.buf.length) s.world
  rw [hend, List.take_nil] at hval
  have hread : env.mgRead (MG_BUF_LEN - 1 - s.buf.length) s.world =
      (some r, (env.mgRead (MG_BUF_LEN - 1 - s.buf.length) s.world).2) := by
    rw [← hr]
  refine ⟨(env.mgRead (MG_BUF_LEN - 1 - s.buf.length) s.world).2, ?_⟩
  unfold fillBuf
  rw [hread]
  dsimp only
  rw [if_neg (by rw [hopen]; simp), if_pos hval, hval]
  simp [hbuf]

/-- Behind the head of a turn the key is in the buffer. -/
theorem fieldStep_fills (s : FormState W) (key rest : List Byte) (hopen : s.allDataRead = false)
    (hlen : s.buf.length ≤ MG_BUF_LEN - 1) (hkey : key.length < MG_BUF_LEN - 1)
    (hahead : s.buf ++ unread s.world = key ++ EQUALS :: rest) :
    ∃ w' buf events, fieldStep env s =
        fieldKey env { s with world := w', buf := buf, events := s.events ++ events } ∧
      buf = key ++ EQUALS :: rest.take (MG_BUF_LEN - 1 - key.length - 1) ∧
      buf ++ unread w' = key ++ EQUALS :: rest ∧
      (w' = s.world ∨ ∃ len, w' = (env.mgRead len s.world).2) ∧
      ∀ e ∈ events, ∃ n, e = .fill n := by
  have htake : (key ++ EQUALS :: rest).take (MG_BUF_LEN - 1) =
      key ++ EQUALS :: rest.take (MG_BUF_LEN - 1 - key.length - 1) := by
    obtain ⟨k, hk⟩ : ∃ k, MG_BUF_LEN - 1 - key.length = k + 1 :=
      ⟨MG_BUF_LEN - 1 - key.length - 1, by omega⟩
    rw [List.take_append, List.take_of_length_le (by omega), hk, List.take_succ_cons]
    rfl
  unfold fieldStep
  by_cases hfull : s.buf.length < MG_BUF_LEN - 1
  · obtain ⟨w', buf, hf, hbuf, hsum, hw⟩ := fillBuf_fills env hfill s hopen hlen (by simp [hahead])
    rw [hahead] at hbuf hsum
    refine ⟨w', buf, [.fill buf.length], ?_, hbuf.trans htake, hsum, Or.inr ⟨_, hw⟩, ?_⟩
    · have hne : ¬ buf.length < 1 := by
        rw [hbuf, htake]
        simp
      rw [if_pos hfull, hf]
      dsimp only
      rw [if_neg hne]
    · intro e he
      exact ⟨_, List.mem_singleton.mp he⟩
  · refine ⟨s.world, s.buf, [], ?_, ?_, hahead, Or.inl rfl, by simp⟩
    · rw [if_neg hfull, List.append_nil]
    · rw [← htake, ← hahead, List.take_append_of_le_length (by omega), List.take_of_length_le hlen]

/-- A block whose value goes on is followed by the next one, as long as the body does. -/
theorem blockNext_fills (f : FieldLocals) (next : Nat) (s : FormState W)
    (hopen : s.allDataRead = false) (hlen : (s.buf.drop next).length < MG_BUF_LEN - 1)
    (hmore : s.buf.drop next ++ unread s.world ≠ []) :
    ∃ w' buf, blockNext env f next s = .inl (.block { f with val := 0 } { s with
        world := w'
        buf := buf
        events := s.events ++ [.fill buf.length] }) ∧
      buf = (s.buf.drop next ++ unread s.world).take (MG_BUF_LEN - 1) ∧
      buf ++ unread w' = s.buf.drop next ++ unread s.world ∧
      ∃ len, w' = (env.mgRead len s.world).2 := by
  obtain ⟨w', buf, hf, hbuf, hsum, hw⟩ := fillBuf_fills env hfill
    { s with buf := s.buf.drop next } hopen (Nat.le_of_lt hlen) hmore
  refine ⟨w', buf, ?_, hbuf, hsum, _, hw⟩
  have hne : ¬ buf.length < 1 := by
    intro hlt
    have hnil : buf = [] := List.eq_nil_of_length_eq_zero (by omega)
    rw [hbuf] at hnil
    rcases List.take_eq_nil_iff.mp hnil with h | h
    · exact absurd h (by decide)
    · exact hmore h
  unfold blockNext
  dsimp only
  rw [if_pos hlen, hf]
  dsimp only
  rw [if_neg hne]

/-- At the end of the body the loops stop. -/
theorem blockNext_ends (f : FieldLocals) (next : Nat) (s : FormState W)
    (hopen : s.allDataRead = false) (hfp : s.fpOpen = false) (hbuf : s.buf.drop next = [])
    (hend : unread s.world = []) :
    ∃ s', blockNext env f next s = .inr ((s.fieldCount : Int), s') ∧
      s'.fieldCount = s.fieldCount ∧ s'.events = s.events ++ [.fill 0] := by
  obtain ⟨w', hf⟩ := fillBuf_end env hfill { s with buf := s.buf.drop next } hopen hbuf hend
  refine ⟨{ s with
    world := w'
    buf := s.buf.drop next
    allDataRead := true
    events := s.events ++ [.fill 0] }, ?_, rfl, rfl⟩
  unfold blockNext
  dsimp only
  rw [if_pos (by rw [hbuf]; decide), hf]
  dsimp only
  rw [if_pos (by rw [hbuf]; decide)]
  unfold fieldEnd
  simp [hfp, hbuf]

end

theorem fieldEnd_closed {W : Type} (env : FormHandler W) (next : Nat) (s : FormState W)
    (hopen : s.allDataRead = false) (hfp : s.fpOpen = false) :
    fieldEnd env false next s = .inl (.field { s with buf := s.buf.drop next }) := by
  unfold fieldEnd
  simp [hopen, hfp]

theorem writeStore_closed {W : Type} (env : FormHandler W) (data : List Byte) (n : Nat)
    (s : FormState W) (hfp : s.fpOpen = false) : writeStore env data n s = s := by
  unfold writeStore
  rw [hfp]
  rfl

/-- A block that is delivered whole, up to an escape that its end cuts short. -/
theorem blockStep_delivers {W : Type} (env : FormHandler W) (f : FieldLocals) (s s1 : FormState W)
    (key v : List Byte) (r : UInt32) (n : Nat) (hv : s.buf.drop f.val = v)
    (hget : f.storage = MG_FORM_FIELD_STORAGE_GET)
    (hkey : (if 0 < f.getBlock then [] else s.buf.take f.keylen) = key)
    (hnone : strchrAt v AMPERSAND = none) (hcstr : cstr v = v)
    (hwhole : f.val + v.length = s.buf.length) (hopen : s.allDataRead = false)
    (hcall : urlEncodedFieldGet env key v v.length s = ((r, n), s1))
    (habort : r ≠ MG_FORM_FIELD_HANDLE_ABORT) (hnext : r ≠ MG_FORM_FIELD_HANDLE_NEXT)
    (hfp : s1.fpOpen = false) :
    blockStep env f s = blockNext env { f with getBlock := f.getBlock + 1 } (f.val + n) s1 := by
  unfold blockStep
  simp only [hv, hnone, hcstr, Option.getD_none, hwhole, Nat.lt_irrefl, and_false, if_false,
    if_pos hget, hkey, hcall, if_neg habort, if_neg hnext, Option.isSome_none, hopen,
    Bool.or_self, Option.map_none, blockEnd, Bool.false_eq_true]
  rw [writeStore_closed env _ _ _ hfp]

/-- A value whose end is in the buffer is delivered up to there. -/
theorem blockStep_ends_value {W : Type} (env : FormHandler W) (f : FieldLocals) (s s1 : FormState W)
    (key v : List Byte) (r : UInt32) (i n : Nat) (hv : s.buf.drop f.val = v)
    (hget : f.storage = MG_FORM_FIELD_STORAGE_GET)
    (hkey : (if 0 < f.getBlock then [] else s.buf.take f.keylen) = key)
    (hfound : strchrAt v AMPERSAND = some i)
    (hcall : urlEncodedFieldGet env key v i s = ((r, n), s1))
    (habort : r ≠ MG_FORM_FIELD_HANDLE_ABORT) (hnext : r ≠ MG_FORM_FIELD_HANDLE_NEXT)
    (hopen : s1.allDataRead = false) (hfp : s1.fpOpen = false) :
    blockStep env f s = .inl (.field { s1 with buf := s1.buf.drop (f.val + (i + 1)) }) := by
  unfold blockStep
  simp only [hv, hfound, reduceCtorEq, false_and, if_false, if_pos hget, hkey, Option.getD_some,
    hcall, if_neg habort, if_neg hnext, Option.isSome_some, Bool.true_or, Option.map_some,
    blockEnd, if_true]
  rw [writeStore_closed env _ _ _ hfp, fieldEnd_closed env _ _ hopen hfp]

end CivetWeb
