import CivetWeb.Form.FormReaders
import CivetWeb.Form.MultipartHead

namespace CivetWeb

/-- The data that calls of `field_get` hand on, each a pointer and a length. -/
def partData (chunks : List (List Byte × Nat)) : List Byte := chunks.flatMap (fun c => c.1.take c.2)

/-- The calls of `field_get` for the blocks of the data of a part; only the first one has the name. -/
def partCalls (key : List Byte) : List (List Byte × Nat) → List FormEvent
  | [] => []
  | c :: chunks => .get key c.1 c.2 :: chunks.map (fun d => .get [] d.1 d.2)

theorem partCalls_cons (key : List Byte) (c : List Byte × Nat) (chunks : List (List Byte × Nat))
    (hne : chunks ≠ []) : partCalls key (c :: chunks) = .get key c.1 c.2 :: partCalls [] chunks := by
  cases chunks with
  | nil => exact absurd rfl hne
  | cons d chunks => rfl

section
variable {W : Type} (env : FormHandler W) (unread : W → List Byte) (boundary stale : List Byte)

/-- The loop over the parts is at a delimiter, with `text` from its `--` on. -/
structure PartReady (s : FormState W) (text : List Byte) : Prop where
  open_data : s.allDataRead = false
  closed : s.fpOpen = false
  buf_le : s.buf.length ≤ MG_BUF_LEN - 1
  ahead : s.buf ++ unread s.world = text

/-- The loop over the blocks of a part is at `text`: the buffer is full or the body has been read, and the
delimiter has been searched for in all of it. -/
structure BlockReady (p : PartLocals) (s : FormState W) (text : List Byte) : Prop where
  storage : p.storage = MG_FORM_FIELD_STORAGE_GET
  open_data : s.allDataRead = false
  closed : s.fpOpen = false
  buf_le : s.buf.length ≤ MG_BUF_LEN - 1
  full : s.buf.length = MG_BUF_LEN - 1 ∨ unread s.world = []
  room : p.hend + (boundary.length + 4) < MG_BUF_LEN - 1
  hend_le : p.hend ≤ s.buf.length
  ahead : s.buf.drop p.hend ++ unread s.world = text
  next : p.next = (searchBoundary (s.buf.drop p.hend) boundary).map (· + p.hend)

variable {unread} (htakes : TakesAll env) (hfill : FillReader env unread)
include htakes

theorem unencodedFieldGet_takes (key keyDec value : List Byte) (n : Nat) (s : FormState W)
    (hkey : decodeKey key = some keyDec) :
    ∃ r, unencodedFieldGet env key value n s = (r, { s with
        world := (env.fieldGet (cstr keyDec) value n s.world).2
        events := s.events ++ [.get (cstr keyDec) value n] }) ∧
      r ≠ MG_FORM_FIELD_HANDLE_ABORT ∧ r ≠ MG_FORM_FIELD_HANDLE_NEXT := by
  obtain ⟨habort, hnext⟩ := htakes.get (cstr keyDec) value n s.world
  refine ⟨_, ?_, habort, hnext⟩
  unfold unencodedFieldGet
  rw [hkey]
  rfl

/-- The last block of the data of a part, and the delimiter behind it. -/
theorem partEnd_takes (p : PartLocals) (s : FormState W) (keyDec : List Byte) (k : Nat)
    (hget : p.storage = MG_FORM_FIELD_STORAGE_GET) (hnext : p.next = some (k + p.hend))
    (hsmall : k + p.hend < 2 ^ 64) (hkey : decodeKey p.key = some keyDec) :
    ∃ s', partEnd env p s = .inl (.part false s') ∧ s'.buf = s.buf.drop (k + p.hend + 2) ∧
      s'.world = (env.fieldGet (cstr keyDec) (s.buf.drop p.hend) k s.world).2 ∧
      s'.allDataRead = s.allDataRead ∧ s'.fpOpen = s.fpOpen ∧ s'.fieldCount = s.fieldCount ∧
      calls s'.events = calls s.events ++ [.get (cstr keyDec) (s.buf.drop p.hend) k] := by
  have habort : storageAborts MG_FORM_FIELD_STORAGE_GET = false := by decide
  obtain ⟨s0, hs0⟩ : ∃ s0, s0 = s.log (.use p.hend k s.buf.length) := ⟨_, rfl⟩
  obtain ⟨r, hcall, hra, hrn⟩ := unencodedFieldGet_takes env htakes p.key keyDec (s.buf.drop p.hend) k
    s0 hkey
  obtain ⟨s1, hs1⟩ : ∃ s1, s1 = { s0 with
      world := (env.fieldGet (cstr keyDec) (s.buf.drop p.hend) k s0.world).2
      events := s0.events ++ [FormEvent.get (cstr keyDec) (s.buf.drop p.hend) k] } := ⟨_, rfl⟩
  rw [← hs1] at hcall
  have hbuf : s1.buf = s.buf := by rw [hs1, hs0]; rfl
  refine ⟨setBuf (s1.buf.drop (k + p.hend + 2)) s1, ?_, ?_, ?_, ?_, ?_, ?_, ?_⟩
  · unfold partEnd
    rw [hnext, Option.map_some, Option.getD_some, sizeSub_le _ _ (Nat.le_add_left _ _) hsmall,
      Nat.add_sub_cancel]
    dsimp only
    rw [← hs0, hcall]
    dsimp only
    rw [if_pos hget, if_neg hra, if_neg hrn]
    unfold partFinish
    rw [hget, habort, hnext]
    simp
  · rw [setBuf_buf, hbuf]
  · show s1.world = _
    rw [hs1, hs0]
    rfl
  · show s1.allDataRead = _
    rw [hs1, hs0]
    rfl
  · show s1.fpOpen = _
    rw [hs1, hs0]
    rfl
  · show s1.fieldCount = _
    rw [hs1, hs0]
    rfl
  · show calls (s1.events ++ _) = _
    rw [hs1, hs0, calls_append]
    show calls (s.events ++ _ ++ _) ++ _ = _
    rw [calls_append, calls_append]
    simp [calls]

include hfill

omit htakes in
/-- More of the body is read behind the bytes that were kept. -/
theorem blockRefill_fills (p : PartLocals) (towrite : Nat) (s : FormState W)
    (hopen : s.allDataRead = false) (hmore : unread s.world ≠ [])
    (hkept : (s.buf.drop (p.hend + towrite)).length = boundary.length + 4)
    (hsmall : boundary.length + 4 < MG_BUF_LEN - 1) :
    ∃ s', blockRefill env boundary p towrite s =
        .inl (.block { p with hend := 0, next := searchBoundary s'.buf boundary } s') ∧
      s'.buf = (s.buf.drop (p.hend + towrite) ++ unread s.world).take (MG_BUF_LEN - 1) ∧
      s'.buf ++ unread s'.world = s.buf.drop (p.hend + towrite) ++ unread s.world ∧
      (unread s'.world).length < (unread s.world).length ∧
      s'.allDataRead = false ∧ s'.fpOpen = s.fpOpen ∧ s'.fieldCount = s.fieldCount ∧
      calls s'.events = calls s.events := by
  obtain ⟨kept, hk⟩ : ∃ kept, kept = s.buf.drop (p.hend + towrite) := ⟨_, rfl⟩
  rw [← hk] at hkept ⊢
  have htake : kept.take (boundary.length + 4) = kept := List.take_of_length_le (by omega)
  obtain ⟨s0, hs0⟩ : ∃ s0, s0 = setBuf kept s := ⟨_, rfl⟩
  have hbuf0 : s0.buf = kept := by rw [hs0, setBuf_buf]
  have hopen0 : s0.allDataRead = false := by
    rw [hs0]
    exact hopen
  have hworld0 : s0.world = s.world := by
    rw [hs0]
    rfl
  obtain ⟨r, hr, hval⟩ := hfill.fill (MG_BUF_LEN - 1 - s0.buf.length) s0.world
  obtain ⟨w, hw⟩ : ∃ w, w = (env.mgRead (MG_BUF_LEN - 1 - s0.buf.length) s0.world).2 := ⟨_, rfl⟩
  have hread : env.mgRead (MG_BUF_LEN - 1 - s0.buf.length) s0.world = (some r, w) := by
    rw [hw, ← hr]
  obtain ⟨bs, hbs⟩ : ∃ bs, bs = r.val := ⟨_, rfl⟩
  have hsplit : unread s.world = bs ++ unread w := by
    rw [hbs, ← hworld0]
    exact hfill.read _ _ _ _ hread
  have hval' : bs = (unread s.world).take (MG_BUF_LEN - 1 - kept.length) := by
    rw [hbs, hval, hbuf0, hworld0]
  have hne : bs ≠ [] := by
    rw [hval']
    intro hnil
    obtain h | h := List.take_eq_nil_iff.mp hnil
    · omega
    · exact hmore h
  have hpos := List.length_pos_of_ne_nil hne
  have hbuf : kept ++ bs = (kept ++ unread s.world).take (MG_BUF_LEN - 1) := by
    rw [List.take_append, List.take_of_length_le (by omega), hval']
  obtain ⟨s1, hs1⟩ : ∃ s1, s1 = { s0 with world := w } := ⟨_, rfl⟩
  refine ⟨setBuf (s0.buf ++ bs) s1, ?_, ?_, ?_, ?_, ?_, ?_, ?_, ?_⟩
  · unfold blockRefill
    dsimp only
    rw [← hk, htake, ← hs0]
    simp only [hread]
    rw [← hbs, if_neg (fun h => hne h.1), if_neg (fun h => hne h.2), hs1]
  · rw [setBuf_buf, hbuf0, hbuf]
  · show s0.buf ++ bs ++ unread s1.world = _
    rw [hbuf0, hs1, List.append_assoc, hsplit]
  · rw [hsplit, List.length_append]
    show (unread s1.world).length < _
    rw [hs1]
    show (unread w).length < _
    omega
  · show s1.allDataRead = false
    rw [hs1]
    exact hopen0
  · show s1.fpOpen = _
    rw [hs1, hs0]
    rfl
  · show s1.fieldCount = _
    rw [hs1, hs0]
    rfl
  · show calls (s1.events ++ _) = _
    rw [hs1, hs0, calls_append]
    show calls (s.events ++ _) ++ _ = _
    rw [calls_append]
    simp [calls]

/-- A block of the data is handed on, and its last bytes are kept. -/
theorem partBlock_fills (p : PartLocals) (s : FormState W) (text keyDec : List Byte) (k : Nat)
    (hready : BlockReady unread boundary p s text) (hk : Scan.find (delimiter boundary) text = some k)
    (hkey : decodeKey p.key = some keyDec) (hnone : p.next = none) :
    ∃ s' towrite, towrite ≤ k ∧ towrite ≤ (s.buf.drop p.hend).length ∧
      partBlock env boundary p s = .inl (.block { p with
        hend := 0, getBlock := p.getBlock + 1, next := searchBoundary s'.buf boundary } s') ∧
      BlockReady unread boundary
        { p with hend := 0, getBlock := p.getBlock + 1, next := searchBoundary s'.buf boundary } s'
        (text.drop towrite) ∧
      (unread s'.world).length < (unread s.world).length ∧ s'.fieldCount = s.fieldCount ∧
      calls s'.events = calls s.events ++ [.get (cstr keyDec) (s.buf.drop p.hend) towrite] := by
  obtain ⟨v, hv⟩ : ∃ v, v = s.buf.drop p.hend := ⟨_, rfl⟩
  have hahead : v ++ unread s.world = text := hv ▸ hready.ahead
  have hvlen : v.length = s.buf.length - p.hend := by rw [hv, List.length_drop]
  have hroom := hready.room
  have hbuf_le := hready.buf_le
  have hdlen : (delimiter boundary).length = boundary.length + 4 := by
    rw [delimiter, List.length_append]
    exact Nat.add_comm _ _
  -- the delimiter ends behind the buffer, so there is more to read
  have hbehind : v.length < k + (boundary.length + 4) := by
    have hfind := Scan.find_prefix (delimiter boundary) v text k ⟨_, hahead⟩ hk
    have hnext := hready.next
    rw [hnone, ← hv] at hnext
    by_contra hfit
    rw [if_pos (by omega)] at hfind
    rw [show searchBoundary v boundary = some k from hfind] at hnext
    cases hnext
  have hkle := Scan.find_le _ _ _ hk
  rw [hdlen, ← hahead, List.length_append] at hkle
  have hmore : unread s.world ≠ [] := by
    intro hnil
    rw [hnil, List.length_nil] at hkle
    omega
  have hfull : s.buf.length = MG_BUF_LEN - 1 := hready.full.resolve_right hmore
  obtain ⟨towrite, htw⟩ : ∃ n, n = v.length - (boundary.length + 4) := ⟨_, rfl⟩
  obtain ⟨s0, hs0⟩ : ∃ s0, s0 = s.log (.use p.hend towrite s.buf.length) := ⟨_, rfl⟩
  obtain ⟨r, hcall, hra, hrn⟩ := unencodedFieldGet_takes env htakes p.key keyDec v towrite s0 hkey
  obtain ⟨s1, hs1⟩ : ∃ s1, s1 = { s0 with
      world := (env.fieldGet (cstr keyDec) v towrite s0.world).2
      events := s0.events ++ [FormEvent.get (cstr keyDec) v towrite] } := ⟨_, rfl⟩
  rw [← hs1] at hcall
  have hbuf1 : s1.buf = s.buf := by rw [hs1, hs0]; rfl
  have hunread1 : unread s1.world = unread s.world := by
    rw [hs1, hs0]
    exact hfill.get (cstr keyDec) v towrite s.world
  have hopen1 : s1.allDataRead = false := by
    rw [hs1, hs0]
    exact hready.open_data
  have hkept : s1.buf.drop (p.hend + towrite) = v.drop towrite := by
    rw [hbuf1, ← List.drop_drop, hv]
  have hsmall : boundary.length + 4 < MG_BUF_LEN - 1 := by omega
  obtain ⟨s2, hrefill, hbuf2, hsum2, hless, hopen2, hfp2, hcount2, hcalls2⟩ :=
    blockRefill_fills env boundary hfill { p with getBlock := p.getBlock + 1 } towrite s1
      hopen1 (by rw [hunread1]; exact hmore)
      (by show (s1.buf.drop (p.hend + towrite)).length = _
          rw [hkept, List.length_drop]; omega) hsmall
  dsimp only at hrefill hbuf2 hsum2
  rw [hkept, hunread1] at hbuf2 hsum2
  rw [hunread1] at hless
  have htext : text.drop towrite = v.drop towrite ++ unread s.world := by
    rw [← hahead, List.drop_append_of_le_length (by omega)]
  have hbig : MG_BUF_LEN - 1 = 8191 := rfl
  refine ⟨s2, towrite, by omega, by rw [← hv]; omega, ?_, ?_, hless, ?_, ?_⟩
  · unfold partBlock
    rw [hnone]
    dsimp only
    rw [sizeSub_le _ _ hready.hend_le (by omega), if_neg (by omega), if_pos hready.storage, ← hvlen,
      ← htw, ← hs0, ← hv, hcall]
    dsimp only
    rw [if_neg hra, if_neg hrn]
    exact hrefill
  · refine ⟨hready.storage, hopen2, ?_, ?_, ?_, ?_, Nat.zero_le _, ?_, ?_⟩
    · rw [hfp2, hs1, hs0]
      exact hready.closed
    · rw [hbuf2]
      exact List.length_take_le _ _
    · by_cases hlong : MG_BUF_LEN - 1 ≤ (v.drop towrite ++ unread s.world).length
      · left
        rw [hbuf2, List.length_take]
        omega
      · right
        have hwhole : s2.buf = v.drop towrite ++ unread s.world := by
          rw [hbuf2, List.take_of_length_le (by omega)]
        rw [hwhole] at hsum2
        exact List.append_cancel_left (hsum2.trans (List.append_nil _).symm)
    · show 0 + (boundary.length + 4) < _
      omega
    · show s2.buf.drop 0 ++ unread s2.world = _
      rw [List.drop_zero, hsum2, htext]
    · show searchBoundary s2.buf boundary = (searchBoundary (s2.buf.drop 0) boundary).map (· + 0)
      rw [List.drop_zero]
      simp
  · rw [hcount2, hs1, hs0]
    rfl
  · rw [hcalls2, hs1, hs0, ← hv]
    show calls (s.events ++ _ ++ _) = _
    rw [calls_append, calls_append]
    simp [calls]

/-- The data of a part is handed on in blocks that make it up, wherever the buffer cuts them. -/
theorem partBlocks_deliver (n : Nat) (p : PartLocals) (s : FormState W) (text keyDec : List Byte)
    (k : Nat) (hn : (unread s.world).length = n) (hready : BlockReady unread boundary p s text)
    (hk : Scan.find (delimiter boundary) text = some k)
    (hkey : decodeKey p.key = some keyDec) :
    ∃ chunks s', chunks ≠ [] ∧ partData chunks = text.take k ∧ (∀ c ∈ chunks, c.2 ≤ c.1.length) ∧
      calls s'.events = calls s.events ++ partCalls (cstr keyDec) chunks ∧
      s'.fieldCount = s.fieldCount ∧
      Machine.Reaches (partsStep env boundary stale) (.block p s) (.part false s') ∧
      PartReady unread s' (text.drop (k + 2)) := by
  induction n using Nat.strong_induction_on generalizing p s text keyDec k with
  | _ n ih =>
    obtain ⟨v, hv⟩ : ∃ v, v = s.buf.drop p.hend := ⟨_, rfl⟩
    have hahead : v ++ unread s.world = text := hv ▸ hready.ahead
    have hfind := Scan.find_prefix (delimiter boundary) v text k ⟨_, hahead⟩ hk
    have hsearch : searchBoundary v boundary = Scan.find (delimiter boundary) v := rfl
    cases hnext : p.next with
    | none =>
      obtain ⟨s1, towrite, hle, hlev, hstep, hready1, hless, hcount1, hcalls1⟩ :=
        partBlock_fills env boundary htakes hfill p s text keyDec k hready hk hkey hnext
      have hkey1 : decodeKey (PartLocals.key { p with
          hend := 0, getBlock := p.getBlock + 1, next := searchBoundary s1.buf boundary }) = some [] := by
        rw [PartLocals.key, if_pos (Nat.succ_pos _), decodeKey_nil]
      obtain ⟨chunks, s', hne, hdata, hlens, hcalls, hcount, hreach, hready'⟩ :=
        ih _ (hn ▸ hless) _ s1 (text.drop towrite) [] (k - towrite) rfl hready1
          (Scan.find_drop _ _ k towrite hle hk) hkey1
      rw [← hv] at hlev hcalls1
      have htake : v.take towrite = text.take towrite := by
        rw [← hahead, List.take_append_of_le_length hlev]
      refine ⟨(v, towrite) :: chunks, s', by simp, ?_, ?_, ?_, hcount.trans hcount1,
        Relation.ReflTransGen.head hstep hreach, ?_⟩
      · have hsplit : text.take k = text.take towrite ++ (text.drop towrite).take (k - towrite) := by
          have hkk : k = towrite + (k - towrite) := by omega
          conv_lhs => rw [hkk, List.take_add]
        rw [partData, List.flatMap_cons, hsplit, ← hdata, htake, partData]
      · exact List.forall_mem_cons.mpr ⟨hlev, hlens⟩
      · rw [hcalls, hcalls1, partCalls_cons _ _ chunks hne]
        simp [cstr]
      · have hkk : towrite + (k - towrite + 2) = k + 2 := by omega
        rw [List.drop_drop, hkk] at hready'
        exact hready'
    | some m =>
      have hm := hready.next
      rw [hnext, ← hv, hsearch, hfind] at hm
      by_cases hfit : k + (delimiter boundary).length ≤ v.length
      · rw [if_pos hfit] at hm
        have hmk : m = k + p.hend := Option.some.inj hm
        have hvlen : v.length = s.buf.length - p.hend := by rw [hv, List.length_drop]
        have hbuf_le := hready.buf_le
        have hbig : MG_BUF_LEN - 1 = 8191 := rfl
        have hdlen : (delimiter boundary).length = boundary.length + 4 := by
          rw [delimiter, List.length_append]
          exact Nat.add_comm _ _
        obtain ⟨s', hend, hbuf', hworld', hopen', hfp', hcount', hcalls'⟩ := partEnd_takes env htakes p s
          keyDec k hready.storage (by rw [hnext, hmk]) (by omega) hkey
        rw [← hv] at hworld' hcalls'
        have hstep : partsStep env boundary stale (.block p s) = .inl (.part false s') := by
          show partBlock env boundary p s = _
          unfold partBlock
          rw [hnext]
          exact hend
        refine ⟨[(v, k)], s', by simp, ?_, ?_, hcalls', hcount', Relation.ReflTransGen.single hstep,
          hopen'.trans hready.open_data, hfp'.trans hready.closed, ?_, ?_⟩
        · rw [partData, List.flatMap_singleton, ← hahead, List.take_append_of_le_length (by omega)]
        · exact List.forall_mem_singleton.mpr (by show k ≤ v.length; omega)
        · rw [hbuf', List.length_drop]
          omega
        · have hdrop : s.buf.drop (k + p.hend + 2) = v.drop (k + 2) := by
            have hsum : k + p.hend + 2 = p.hend + (k + 2) := by omega
            rw [hsum, ← List.drop_drop, hv]
          have hun : unread s'.world = unread s.world := by
            rw [hworld']
            exact hfill.get (cstr keyDec) v k s.world
          rw [hbuf', hdrop, hun, ← hahead, List.drop_append_of_le_length (by omega)]
      · rw [if_neg hfit] at hm
        cases hm

/-! ### The head of a part -/

omit hfill in
theorem urlEncodedFieldFound_part (p : FormPart) (hp : WellFormedPart boundary p)
    (hlimits : PartLimits p) (s : FormState W) :
    ∃ s', urlEncodedFieldFound env p.name (p.filename.filter (fun f => f ≠ [])) s =
        (MG_FORM_FIELD_STORAGE_GET, s') ∧ s'.buf = s.buf ∧
      s'.world = (env.fieldFound p.name (p.filename.getD []) s.world).2 ∧
      s'.allDataRead = s.allDataRead ∧ s'.fpOpen = s.fpOpen ∧ s'.fieldCount = s.fieldCount ∧
      s'.events = s.events ++ [.found p.name (p.filename.getD [])] := by
  have hplain : ∀ v : List Byte, (∀ c ∈ v, plainByte c = true) → v.length < 1024 →
      decodeKey v = some v ∧ cstr v = v := by
    intro v hv hlen
    have hlit : ∀ c ∈ v, literalByte c = true := fun c hc => (plainByte_facts c (hv c hc)).1
    refine ⟨decodeKey_literal hlit hlen, ?_⟩
    apply cstr_of_no_nul
    intro hmem
    exact literalByte_ne_nul NUL (hlit NUL hmem) rfl
  obtain ⟨hdec, hcstr⟩ := hplain p.name hp.name hlimits.name
  have hcall := callFieldFound_takes env htakes p.name (p.filename.getD []) s
  refine ⟨(callFieldFound env p.name (p.filename.getD []) s).2, ?_, ?_⟩
  · have hget : (callFieldFound env p.name (p.filename.getD []) s).1 = MG_FORM_FIELD_STORAGE_GET := by
      rw [hcall]
    have hsame : urlEncodedFieldFound env p.name (p.filename.filter (fun f => f ≠ [])) s =
        callFieldFound env p.name (p.filename.getD []) s := by
      unfold urlEncodedFieldFound
      rw [hdec]
      dsimp only
      rw [hcstr]
      cases hf : p.filename with
      | none => rfl
      | some f =>
        by_cases hnil : f = []
        · subst hnil
          rfl
        · obtain ⟨hfile, hbytes⟩ := hp.filename f hf
          obtain ⟨hfdec, hfcstr⟩ := hplain f hbytes (hlimits.filename f hf)
          have hkeep : Option.filter (fun f => decide (f ≠ [])) (some f) = some f := by
            simp [Option.filter, hnil]
          rw [hkeep]
          dsimp only
          rw [hfdec]
          dsimp only
          rw [hfcstr, removeDotSegments_plain f hfile]
          rfl
    rw [hsame, ← hget]
  · rw [hcall]
    exact ⟨rfl, rfl, rfl, rfl, rfl, rfl⟩

omit htakes hfill in
/-- The search from the end of the headers on finds what the search in the data finds. -/
theorem searchBoundary_data (z data tail : List Byte) (hcr : CR ∉ boundary)
    (hdata : ¬ delimiter boundary <:+: CR :: LF :: data)
    (hz : z <+: data ++ (delimiter boundary ++ tail)) :
    Scan.find (delimiter boundary) (data ++ (delimiter boundary ++ tail)) = some data.length ∧
    (searchBoundary (CR :: LF :: z) boundary).map (· - 2) = searchBoundary z boundary ∧
    ∀ m, searchBoundary (CR :: LF :: z) boundary = some m → 2 ≤ m := by
  have hnocr : CR ∉ LF :: 45 :: 45 :: boundary := by
    intro hmem
    simp only [List.mem_cons] at hmem
    obtain h | h | h | h := hmem
    · exact absurd h (by decide)
    · exact absurd h (by decide)
    · exact absurd h (by decide)
    · exact hcr h
  have hwhole : Scan.find (delimiter boundary) (CR :: LF :: data ++ (delimiter boundary ++ tail)) =
      some (data.length + 2) :=
    Scan.find_put CR (LF :: 45 :: 45 :: boundary) (CR :: LF :: data) tail hnocr hdata
  have hrest := Scan.find_drop _ _ _ 2 (Nat.le_add_left 2 data.length) hwhole
  rw [Nat.add_sub_cancel] at hrest
  have hrest' : Scan.find (delimiter boundary) (data ++ (delimiter boundary ++ tail)) =
      some data.length := hrest
  have hlong := Scan.find_prefix (delimiter boundary) (CR :: LF :: z) _ _
    ((List.prefix_append_right_inj [CR, LF]).mpr hz) hwhole
  have hshort := Scan.find_prefix (delimiter boundary) z _ _ hz hrest'
  have hlong' : searchBoundary (CR :: LF :: z) boundary = _ := hlong
  have hshort' : searchBoundary z boundary = _ := hshort
  simp only [List.length_cons] at hlong'
  refine ⟨hrest', ?_, ?_⟩
  · rw [hlong', hshort']
    by_cases hfit : data.length + (delimiter boundary).length ≤ z.length
    · rw [if_pos hfit, if_pos (by omega)]
      rfl
    · rw [if_neg hfit, if_neg (by omega)]
      rfl
  · intro m hm
    rw [hlong'] at hm
    split_ifs at hm
    cases hm
    omega

/-- What stands behind the dash boundary of a part. -/
def FormPart.render (p : FormPart) (rest : List Byte) : List Byte :=
  CR :: LF :: (p.block ++ CR :: LF :: (p.data ++ rest))

omit htakes hfill in
/-- An empty preamble is found to be empty. -/
theorem removePreamble_none (t : FormState W) (hnul : NUL ∉ boundary)
    (hpre : boundary <+: t.buf.drop 2) : removePreamble boundary stale t = (setBuf t.buf t, true) := by
  have hmem : boundary <+: (t.buf ++ NUL :: stale.drop (t.buf.length + 1)).drop 2 :=
    hpre.trans (Scan.prefix_drop _ _ 2 (List.prefix_append _ _))
  have hzero := (strncmp_eq_zero _ boundary hnul).mpr hmem
  obtain ⟨mem, hm⟩ : ∃ mem, mem = t.buf ++ NUL :: stale.drop (t.buf.length + 1) := ⟨_, rfl⟩
  obtain ⟨limit, hlimit⟩ : ∃ limit, limit = sizeSub t.buf.length boundary.length := ⟨_, rfl⟩
  rw [← hm] at hzero
  have hskip : skipPreamble boundary mem limit 1024 0 = 0 := by
    by_contra hne
    have hbefore := (skipPreamble_spec boundary mem limit 1024 0).2.2.1 0 (Nat.le_refl 0) (by omega)
    exact hbefore.2 hzero
  unfold removePreamble
  dsimp only
  rw [← hm, ← hlimit, hskip, Nat.zero_add, if_pos hzero, if_pos (Nat.zero_le _), List.drop_zero]

omit htakes in
/-- The buffer is filled, and starts with the dash boundary. -/
theorem partStep_fills (first : Bool) (hnul : NUL ∉ boundary) (hbl : boundary.length ≤ 70)
    (rest : List Byte) (s : FormState W)
    (hready : PartReady unread s (dashBoundary boundary ++ rest)) :
    ∃ u, partStep env boundary stale first s = partBegin env boundary u ∧
      u.buf = (dashBoundary boundary ++ rest).take (MG_BUF_LEN - 1) ∧
      u.buf ++ unread u.world = dashBoundary boundary ++ rest ∧ u.allDataRead = false ∧
      u.fpOpen = false ∧ u.fieldCount = s.fieldCount ∧ calls u.events = calls s.events := by
  obtain ⟨text, htext⟩ : ∃ text, text = dashBoundary boundary ++ rest := ⟨_, rfl⟩
  rw [← htext] at hready ⊢
  have hmore : s.buf ++ unread s.world ≠ [] := by
    rw [hready.ahead, htext]
    simp [dashBoundary, ascii]
  obtain ⟨w, buf, hfilled, hbuf, hsum, -⟩ := fillBuf_fills env hfill s hready.open_data hready.buf_le
    hmore
  rw [hready.ahead] at hbuf hsum
  obtain ⟨t, ht⟩ : ∃ t, t = { s with
      world := w
      buf := buf
      events := s.events ++ [FormEvent.fill buf.length] } := ⟨_, rfl⟩
  rw [← ht] at hfilled
  have htbuf : t.buf = buf := by rw [ht]
  have hcalls : calls t.events = calls s.events := by
    rw [ht, calls_append]
    exact List.append_nil _
  have hbig : MG_BUF_LEN - 1 = 8191 := rfl
  have hdash : dashBoundary boundary <+: buf := by
    have hfront : dashBoundary boundary <+: text := ⟨rest, htext.symm⟩
    apply List.prefix_of_prefix_length_le hfront ⟨_, hsum⟩
    rw [hbuf, List.length_take, htext, List.length_append]
    simp only [dashBoundary, ascii, List.length_append]
    simp
    omega
  have hnonempty : ¬ t.buf.length < 1 := by
    have hle := hdash.length_le
    simp only [dashBoundary, ascii, List.length_append] at hle
    rw [htbuf]
    simp at hle
    omega
  have hpre : boundary <+: t.buf.drop 2 := by
    rw [htbuf]
    exact Scan.prefix_drop _ _ 2 hdash
  unfold partStep
  rw [hfilled]
  dsimp only
  rw [if_neg hnonempty]
  cases first with
  | false =>
    rw [if_neg Bool.false_ne_true]
    refine ⟨t, rfl, ?_⟩
    rw [hcalls, ht]
    exact ⟨hbuf, hsum, hready.open_data, hready.closed, rfl, rfl⟩
  | true =>
    have hcalls' : calls (setBuf t.buf t).events = calls s.events := by
      show calls (t.events ++ _) = _
      rw [calls_append, hcalls]
      exact List.append_nil _
    rw [if_pos rfl, removePreamble_none boundary stale t hnul hpre]
    dsimp only
    refine ⟨setBuf t.buf t, rfl, ?_⟩
    rw [hcalls', ht]
    exact ⟨hbuf, hsum, hready.open_data, hready.closed, rfl, rfl⟩

/-- The head of a part is read, and its field is announced. -/
theorem partStep_begins (first : Bool) (p : FormPart) (hp : WellFormedPart boundary p)
    (hlimits : PartLimits p) (hnul : NUL ∉ boundary) (hcr : CR ∉ boundary)
    (hbl : boundary.length ≤ 70) (tail : List Byte) (s : FormState W)
    (hready : PartReady unread s
      (dashBoundary boundary ++ p.render (delimiter boundary ++ tail))) :
    ∃ q s', partsStep env boundary stale (.part first s) = .inl (.block q s') ∧
      BlockReady unread boundary q s' (p.data ++ (delimiter boundary ++ tail)) ∧ q.key = p.name ∧
      s'.fieldCount = s.fieldCount + 1 ∧
      calls s'.events = calls s.events ++ [.found p.name (p.filename.getD [])] := by
  obtain ⟨u, hstep, hubuf, husum, huopen, hufp, hucount, hucalls⟩ := partStep_fills env boundary stale
    hfill first hnul hbl _ s hready
  obtain ⟨text, htext⟩ : ∃ text, text = dashBoundary boundary ++ p.render (delimiter boundary ++ tail) :=
    ⟨_, rfl⟩
  rw [← htext] at hubuf husum
  -- the head of the part is in the buffer as a whole
  obtain ⟨head, hhead⟩ : ∃ head, head = dashBoundary boundary ++ CR :: LF :: (p.block ++ [CR, LF]) :=
    ⟨_, rfl⟩
  have hheadlen : head.length = p.hend boundary := by
    rw [hhead]
    simp [dashBoundary, ascii, FormPart.hend]
    omega
  have htexthead : text = head ++ (p.data ++ (delimiter boundary ++ tail)) := by
    rw [htext, hhead]
    simp [FormPart.render]
  have hbig : MG_BUF_LEN - 1 = 8191 := rfl
  have hblock := hp.block
  have hhendle : p.hend boundary ≤ 4172 := by
    unfold FormPart.hend
    omega
  obtain ⟨z, hz, hzrest⟩ := Scan.prefix_cut head (p.data ++ (delimiter boundary ++ tail)) u.buf
    (unread u.world) (by rw [husum, htexthead]) (by
      rw [hubuf, List.length_take, htexthead, List.length_append]
      omega)
  have hshape : u.buf = dashBoundary boundary ++ CR :: LF :: (p.block ++ CR :: LF :: z) := by
    rw [hz, hhead]
    simp
  obtain ⟨s1, hfound, hbuf1, hworld1, hopen1, hfp1, hcount1, hevents1⟩ :=
    urlEncodedFieldFound_part env boundary htakes p hp hlimits
      { u with fieldCount := u.fieldCount + 1, path := [] }
  have hgetstore : MG_FORM_FIELD_STORAGE_GET ≠ MG_FORM_FIELD_STORAGE_STORE := by decide
  refine ⟨⟨p.hend boundary, p.name, MG_FORM_FIELD_STORAGE_GET, 0,
    (searchBoundary (u.buf.drop (p.hend boundary - 2)) boundary).map (· + (p.hend boundary - 2))⟩, s1,
    ?_, ?_, rfl, ?_, ?_⟩
  · have hparse := parsePartHead_render boundary p hp hlimits hnul z
    rw [← hshape] at hparse
    show partStep env boundary stale first s = _
    rw [hstep]
    unfold partBegin
    rw [hparse]
    dsimp only
    rw [hfound]
    dsimp only
    rw [hbuf1, if_neg hgetstore]
  · have hworld : unread s1.world = unread u.world := by
      rw [hworld1, hfill.found]
    have hdrop : u.buf.drop (p.hend boundary) = z := by
      rw [hz, ← hheadlen, List.drop_left]
    have hdrop2 : u.buf.drop (p.hend boundary - 2) = CR :: LF :: z := by
      have hfront : u.buf = dashBoundary boundary ++ CR :: LF :: p.block ++ CR :: LF :: z := by
        rw [hshape]
        simp
      have hlen : p.hend boundary - 2 = (dashBoundary boundary ++ CR :: LF :: p.block).length := by
        simp [dashBoundary, ascii, FormPart.hend]
        omega
      rw [hlen, hfront, List.drop_left]
    obtain ⟨-, hsearch, hge⟩ := searchBoundary_data boundary z p.data tail hcr hp.data
      ⟨unread u.world, hzrest.symm⟩
    refine ⟨rfl, ?_, ?_, ?_, ?_, ?_, ?_, ?_, ?_⟩
    · rw [hopen1]
      exact huopen
    · rw [hfp1]
      exact hufp
    · rw [hbuf1]
      show u.buf.length ≤ _
      rw [hubuf]
      exact List.length_take_le _ _
    · rw [hbuf1, hworld]
      show u.buf.length = _ ∨ _
      by_cases hlong : MG_BUF_LEN - 1 ≤ text.length
      · left
        rw [hubuf, List.length_take]
        omega
      · right
        have hwhole : u.buf = text := by
          rw [hubuf, List.take_of_length_le (by omega)]
        rw [hwhole] at husum
        exact List.append_cancel_left (husum.trans (List.append_nil _).symm)
    · show p.hend boundary + (boundary.length + 4) < _
      omega
    · rw [hbuf1]
      show p.hend boundary ≤ u.buf.length
      rw [hz, List.length_append, hheadlen]
      exact Nat.le_add_right _ _
    · rw [hbuf1, hworld]
      show u.buf.drop (p.hend boundary) ++ _ = _
      rw [hdrop, hzrest]
    · rw [hbuf1]
      show Option.map _ (searchBoundary (u.buf.drop (p.hend boundary - 2)) boundary) =
        (searchBoundary (u.buf.drop (p.hend boundary)) boundary).map _
      rw [hdrop, hdrop2, ← hsearch]
      have hhend2 : 2 ≤ p.hend boundary := by
        unfold FormPart.hend
        omega
      cases hm : searchBoundary (CR :: LF :: z) boundary with
      | none => rfl
      | some m =>
        have hm2 := hge m hm
        show some (m + (p.hend boundary - 2)) = some (m - 2 + p.hend boundary)
        rw [Option.some.injEq]
        omega
  · rw [hcount1]
    show u.fieldCount + 1 = _
    rw [hucount]
  · rw [hevents1, calls_append]
    show calls u.events ++ _ = _
    rw [hucalls]
    rfl

/-! ### A whole body -/

/-- What stands behind the first dash boundary of a body. -/
def renderParts (boundary epilogue : List Byte) : List FormPart → List Byte
  | [] => ascii "--" ++ epilogue
  | p :: parts => p.render (delimiter boundary ++ renderParts boundary epilogue parts)

/-- A multipart body without preamble. -/
def multipartBody (boundary epilogue : List Byte) (parts : List FormPart) : List Byte :=
  dashBoundary boundary ++ renderParts boundary epilogue parts

/-- The callbacks for a list of parts: for each part one call of `field_found` with its names, and calls
of `field_get` whose data makes up that of the part. -/
inductive PartsDelivered : List FormPart → List FormEvent → Prop where
  | nil : PartsDelivered [] []
  | cons (p : FormPart) (parts : List FormPart) (chunks : List (List Byte × Nat))
      (events : List FormEvent) : chunks ≠ [] → partData chunks = p.data →
      (∀ c ∈ chunks, c.2 ≤ c.1.length) → PartsDelivered parts events →
      PartsDelivered (p :: parts)
        (.found p.name (p.filename.getD []) :: (partCalls p.name chunks ++ events))

/-- The parts of a body are delivered one by one, and their number is returned. -/
theorem parts_deliver (hnul : NUL ∉ boundary) (hcr : CR ∉ boundary) (hbl : boundary.length ≤ 70)
    (epilogue : List Byte) (parts : List FormPart)
    (hparts : ∀ p ∈ parts, WellFormedPart boundary p ∧ PartLimits p) (first : Bool) (s : FormState W)
    (hready : PartReady unread s (multipartBody boundary epilogue parts)) :
    ∃ (s' : FormState W) (events : List FormEvent),
      Machine.Ends (partsStep env boundary stale) (.part first s)
        (((s.fieldCount + parts.length : Nat) : Int), s') ∧
      calls s'.events = calls s.events ++ events ∧ PartsDelivered parts events := by
  induction parts generalizing first s with
  | nil =>
    obtain ⟨u, hstep, hbuf, hsum, -, -, hcount, hcalls⟩ := partStep_fills env boundary stale hfill first
      hnul hbl _ s hready
    have hbig : MG_BUF_LEN - 1 = 8191 := rfl
    obtain ⟨z, hz, -⟩ := Scan.prefix_cut (dashBoundary boundary ++ ascii "--") epilogue u.buf
      (unread u.world) (by rw [hsum, renderParts]; simp) (by
        rw [hbuf, renderParts, List.length_take]
        simp only [dashBoundary, ascii, List.length_append]
        simp
        omega)
    have hfinal := parsePartHead_final boundary z hnul
    rw [← List.append_assoc, ← hz] at hfinal
    refine ⟨u, [], ?_, ?_, PartsDelivered.nil⟩
    · apply Machine.Ends.last
      show partStep env boundary stale first s = _
      rw [hstep]
      unfold partBegin
      rw [hfinal, List.length_nil, ← hcount]
      rfl
    · rw [hcalls, List.append_nil]
  | cons p parts ih =>
    obtain ⟨hp, hlimits⟩ := hparts p (by simp)
    obtain ⟨q, s1, hstep, hblock, hkey, hcount1, hcalls1⟩ := partStep_begins env boundary stale htakes
      hfill first p hp hlimits hnul hcr hbl (renderParts boundary epilogue parts) s hready
    have hlit : ∀ c ∈ p.name, literalByte c = true := fun c hc => (plainByte_facts c (hp.name c hc)).1
    have hdec : decodeKey q.key = some p.name := by
      rw [hkey, decodeKey_literal hlit hlimits.name]
    have hcstr : cstr p.name = p.name := by
      apply cstr_of_no_nul
      intro hmem
      exact literalByte_ne_nul NUL (hlit NUL hmem) rfl
    obtain ⟨hfind, -, -⟩ := searchBoundary_data boundary [] p.data
      (renderParts boundary epilogue parts) hcr hp.data List.nil_prefix
    obtain ⟨chunks, s2, hne, hdata, hlens, hcalls2, hcount2, hreach, hready2⟩ := partBlocks_deliver env
      boundary stale htakes hfill _ q s1 _ p.name p.data.length rfl hblock hfind hdec
    rw [List.take_left] at hdata
    have hbehind : (p.data ++ (delimiter boundary ++ renderParts boundary epilogue parts)).drop
        (p.data.length + 2) = multipartBody boundary epilogue parts := by
      rw [← List.drop_drop, List.drop_left]
      rfl
    rw [hbehind] at hready2
    obtain ⟨s3, events, hends, hcalls3, hdelivered⟩ := ih (fun r hr => hparts r (by simp [hr])) false s2
      hready2
    refine ⟨s3, .found p.name (p.filename.getD []) :: (partCalls p.name chunks ++ events), ?_, ?_,
      PartsDelivered.cons p parts chunks events hne hdata hlens hdelivered⟩
    · apply Machine.Ends.more _ _ _ hstep
      apply Machine.Reaches.ends _ _ _ _ hreach
      have hsum : s.fieldCount + (p :: parts).length = s2.fieldCount + parts.length := by
        rw [hcount2, hcount1, List.length_cons]
        omega
      rw [hsum]
      exact hends
    · rw [hcalls3, hcalls2, hcalls1, hcstr]
      simp

end

end CivetWeb
