import CivetWeb.Form.BodyReader
import CivetWeb.Form.FormPairs

namespace CivetWeb

/-- A client that asks for the value of every field and takes all of it. -/
structure TakesAll {W : Type} (env : FormHandler W) : Prop where
  hasGet : env.hasGet = true
  found : ∀ key filename w, (env.fieldFound key filename w).1.1 = MG_FORM_FIELD_STORAGE_GET
  malloc : ∀ size w, (env.mgMalloc size w).1 = true
  get : ∀ key value n w, (env.fieldGet key value n w).1 ≠ MG_FORM_FIELD_HANDLE_ABORT ∧
    (env.fieldGet key value n w).1 ≠ MG_FORM_FIELD_HANDLE_NEXT

section
variable {W : Type} (env : FormHandler W) (htakes : TakesAll env)
include htakes

theorem callFieldFound_takes (keyDec filenameDec : List Byte) (s : FormState W) :
    callFieldFound env keyDec filenameDec s = (MG_FORM_FIELD_STORAGE_GET, { s with
      world := (env.fieldFound keyDec filenameDec s.world).2
      path := (env.fieldFound keyDec filenameDec s.world).1.2
      events := s.events ++ [.found keyDec filenameDec] }) := by
  have hget : MG_FORM_FIELD_STORAGE_GET &&& 0xF ≠ MG_FORM_FIELD_STORAGE_STORE := by decide
  unfold callFieldFound
  simp only [htakes.found, htakes.hasGet, Bool.not_true, Bool.false_eq_true, and_false, if_false,
    hget, false_and]

theorem urlEncodedFieldFound_takes (key keyDec : List Byte) (s : FormState W)
    (hdec : decodeKey key = some keyDec) :
    urlEncodedFieldFound env key none s = (MG_FORM_FIELD_STORAGE_GET, { s with
      world := (env.fieldFound (cstr keyDec) [] s.world).2
      path := (env.fieldFound (cstr keyDec) [] s.world).1.2
      events := s.events ++ [.found (cstr keyDec) []] }) := by
  unfold urlEncodedFieldFound
  simp only [hdec]
  exact callFieldFound_takes env htakes (cstr keyDec) [] s

theorem urlEncodedFieldGet_takes (key keyDec value d : List Byte) (n : Nat) (s : FormState W)
    (hkey : decodeKey key = some keyDec)
    (hd : mgUrlDecodeInt value (sizeToInt (trimValue value n)) (sizeToInt (trimValue value n) + 1) true = some d) :
    ∃ r w', urlEncodedFieldGet env key value n s = ((r, trimValue value n), { s with
        world := w'
        events := s.events ++ [.get (cstr keyDec) d d.length] }) ∧
      r ≠ MG_FORM_FIELD_HANDLE_ABORT ∧ r ≠ MG_FORM_FIELD_HANDLE_NEXT := by
  obtain ⟨w1, hw1⟩ : ∃ w1, w1 = (env.mgMalloc (n + 1) s.world).2 := ⟨_, rfl⟩
  obtain ⟨habort, hnext⟩ := htakes.get (cstr keyDec) d d.length w1
  refine ⟨_, (env.fieldGet (cstr keyDec) d d.length w1).2, ?_, habort, hnext⟩
  unfold urlEncodedFieldGet
  simp only [htakes.malloc, Bool.not_true, Bool.false_eq_true, if_false, hkey, hd,
    callFieldGet, hw1]

/-! ### The query string -/

/-- The callbacks for a pair that is in memory as a whole. -/
def pairCalls (p : FormPair) : List FormEvent :=
  [.found p.1 [], .get p.1 (formDecode p.2) (formDecode p.2).length]

theorem queryStep_pair (p : FormPair) (hp : WellFormedPair p) (hkey : p.1.length < 1024)
    (pairs : List FormPair) (s : FormState W) :
    ∃ d s', queryStep env (joinPairs (p :: pairs), s) = .inl (joinPairs pairs, s') ∧
      s'.fieldCount = s.fieldCount + 1 ∧ s'.events = s.events ++ [.found p.1 [], .get p.1 d d.length] ∧
      (d = formDecode p.2 ↔ p.2.length < 2 ^ 31) := by
  obtain ⟨data, hdata⟩ : ∃ data, data = joinPairs (p :: pairs) := ⟨_, rfl⟩
  rw [joinPairs_cons] at hdata
  have hnul : deref data ≠ NUL := by
    rw [hdata]
    cases hk : p.1 with
    | nil =>
      show EQUALS ≠ NUL
      decide
    | cons c k => exact (WellFormedPair.key_plain p hp c (by rw [hk]; simp)).1
  have hfound : strchrAt data EQUALS = some p.1.length := by
    rw [hdata]
    refine strchrAt_append p.1 _ EQUALS (by decide) (fun c hc => ?_)
    obtain ⟨h1, h2, -⟩ := WellFormedPair.key_plain p hp c hc
    exact ⟨h1, h2⟩
  have htake : data.take p.1.length = p.1 := by
    rw [hdata, List.take_left]
  have hval : data.drop (p.1.length + 1) = p.2 ++ pairsTail pairs := by
    rw [hdata, ← List.drop_drop, List.drop_left]
    rfl
  have hplain := FormValue.plain p.2 hp.value
  -- where the value ends, and what stands behind it
  obtain ⟨amp, hamp, hlen, hnext⟩ : ∃ amp, strchrAt (p.2 ++ pairsTail pairs) AMPERSAND = amp ∧
      amp.getD (cstr (p.2 ++ pairsTail pairs)).length = p.2.length ∧
      (p.2 ++ pairsTail pairs).drop ((amp.map (· + 1)).getD p.2.length) = joinPairs pairs := by
    unfold pairsTail
    by_cases hnil : pairs = []
    · have hno : AMPERSAND ∉ p.2 := fun h => (hplain _ h).2 rfl
      have hcstr := cstr_of_no_nul p.2 (fun h => (hplain _ h).1 rfl)
      refine ⟨none, ?_, ?_, ?_⟩
      · rw [if_pos hnil, List.append_nil]
        exact strchrAt_eq_none p.2 AMPERSAND hno
      · rw [if_pos hnil, List.append_nil, hcstr]
        rfl
      · rw [if_pos hnil, List.append_nil, hnil]
        exact List.drop_length
    · refine ⟨some p.2.length, ?_, rfl, ?_⟩
      · rw [if_neg hnil]
        exact strchrAt_append p.2 _ AMPERSAND (by decide) hplain
      · rw [if_neg hnil]
        show (p.2 ++ AMPERSAND :: joinPairs pairs).drop (p.2.length + 1) = _
        rw [← List.drop_drop, List.drop_left]
        rfl
  have hwhole : trimValue (p.2 ++ pairsTail pairs) p.2.length = p.2.length := by
    rw [trimValue_append, FormValue.trim_whole p.2 hp.value]
  obtain ⟨s1, hs1⟩ : ∃ s1, s1 = { s with fieldCount := s.fieldCount + 1, path := [] } := ⟨_, rfl⟩
  have hdec := WellFormedPair.decodeKey_key p hp hkey
  have hcall := urlEncodedFieldFound_takes env htakes p.1 p.1 s1 hdec
  rw [WellFormedPair.key_cstr p hp] at hcall
  obtain ⟨s2, hs2⟩ : ∃ s2, s2 = (urlEncodedFieldFound env p.1 none s1).2 := ⟨_, rfl⟩
  obtain ⟨d, hd, hwhole_iff⟩ := mgUrlDecodeInt_value p.2 (pairsTail pairs) hp.value
  obtain ⟨r, w', hget, habort, hnextf⟩ := urlEncodedFieldGet_takes env htakes p.1 p.1
    (p.2 ++ pairsTail pairs) d p.2.length s2 hdec (by rw [hwhole, hd])
  rw [hwhole, WellFormedPair.key_cstr p hp] at hget
  have hgetabort : storageAborts MG_FORM_FIELD_STORAGE_GET = false := by decide
  have hgetstore : MG_FORM_FIELD_STORAGE_GET ≠ MG_FORM_FIELD_STORAGE_STORE := by decide
  have hcall' : urlEncodedFieldFound env p.1 none s1 = (MG_FORM_FIELD_STORAGE_GET, s2) := by
    rw [hs2, hcall]
  refine ⟨d, { s2 with
    world := w'
    events := s2.events ++ [.get p.1 d d.length] }, ?_, ?_, ?_, hwhole_iff⟩
  · rw [joinPairs_cons, ← hdata]
    unfold queryStep
    simp only [if_neg hnul, hfound, htake, ← hs1, hcall', hval, hamp, hlen, hget, if_true,
      if_neg habort, if_neg hnextf, hnext, queryEnd, if_neg hgetstore, hgetabort,
      Bool.false_eq_true, or_self, if_false]
  · show s2.fieldCount = _
    rw [hs2, hcall, hs1]
  · show s2.events ++ _ = _
    rw [hs2, hcall, hs1]
    simp

/-- In a query string every pair gets one call of `field_get`, with the decoded value where an `int` holds the
value's length. -/
theorem queryStep_join (pairs : List FormPair) (hpairs : ∀ p ∈ pairs, WellFormedPair p)
    (hkeys : ∀ p ∈ pairs, p.1.length < 1024) (s : FormState W) :
    ∃ (s' : FormState W) (events : List FormEvent), Machine.Ends (queryStep env) (joinPairs pairs, s)
        (((s.fieldCount + pairs.length : Nat) : Int), s') ∧ s'.events = s.events ++ events ∧
      (events = pairs.flatMap pairCalls ↔ ∀ p ∈ pairs, p.2.length < 2 ^ 31) := by
  induction pairs generalizing s with
  | nil => exact ⟨s, [], Machine.Ends.last _ _ rfl, by simp, by simp⟩
  | cons p pairs ih =>
    obtain ⟨d, s1, hstep, hcount, hevents, hvalue⟩ := queryStep_pair env htakes p (hpairs p (by simp))
      (hkeys p (by simp)) pairs s
    obtain ⟨s2, events, hends, hevents2, hvalues⟩ := ih (fun q hq => hpairs q (by simp [hq]))
      (fun q hq => hkeys q (by simp [hq])) s1
    refine ⟨s2, [.found p.1 [], .get p.1 d d.length] ++ events, Machine.Ends.more _ _ _ hstep ?_, ?_, ?_⟩
    · rw [List.length_cons, Nat.add_comm pairs.length, ← Nat.add_assoc, ← hcount]
      exact hends
    · rw [hevents2, hevents, List.append_assoc]
    · have hget : d = formDecode p.2 ∧ d.length = (formDecode p.2).length ↔ d = formDecode p.2 :=
        ⟨And.left, fun h => ⟨h, by rw [h]⟩⟩
      rw [List.flatMap_cons, List.forall_mem_cons, ← hvalue, ← hvalues, pairCalls]
      simp only [List.cons_append, List.nil_append, List.cons.injEq, FormEvent.get.injEq, true_and, hget]

/-! ### The request body -/

/-- The calls of the callbacks among the events. -/
def calls (events : List FormEvent) : List FormEvent :=
  events.filter (fun e => match e with
    | .found _ _ => true
    | .get _ _ _ => true
    | _ => false)

/-- The calls of `field_get` for the blocks of one value; only the first one has the key. -/
def valueCalls (key : List Byte) : List (List Byte) → List FormEvent
  | [] => []
  | c :: chunks => .get key c c.length :: chunks.map (fun d => .get [] d d.length)

omit htakes in
theorem calls_append (e e' : List FormEvent) : calls (e ++ e') = calls e ++ calls e' :=
  List.filter_append e e'

omit htakes in
theorem valueCalls_cons (key c : List Byte) (chunks : List (List Byte)) (hne : chunks ≠ []) :
    valueCalls key (c :: chunks) = .get key c c.length :: valueCalls [] chunks := by
  cases chunks with
  | nil => exact absurd rfl hne
  | cons d chunks => rfl

variable {unread : W → List Byte} (hfill : FillReader env unread)
include hfill

/-- A value is delivered in blocks that make up its text, wherever the buffer cuts it. -/
theorem blocks_deliver (n : Nat) (f : FieldLocals) (s : FormState W)
    (key keyDec value tail : List Byte)
    (hn : value.length + (unread s.world).length = n) (hfits : (FieldsAt.block f s).Fits)
    (hfp : s.fpOpen = false) (hget : f.storage = MG_FORM_FIELD_STORAGE_GET)
    (hkey : (if 0 < f.getBlock then [] else s.buf.take f.keylen) = key)
    (hdec : decodeKey key = some keyDec) (hform : FormValue value)
    (htail : tail = [] ∨ ∃ rest, tail = AMPERSAND :: rest)
    (hahead : s.buf.drop f.val ++ unread s.world = value ++ tail) :
    ∃ chunks s', chunks ≠ [] ∧ chunks.flatten = formDecode value ∧
      calls s'.events = calls s.events ++ valueCalls (cstr keyDec) chunks ∧
      s'.fieldCount = s.fieldCount ∧
      ((tail = [] ∧ Machine.Ends (fieldsStep env) (.block f s) ((s.fieldCount : Int), s')) ∨
        (∃ rest, tail = AMPERSAND :: rest ∧
          Machine.Reaches (fieldsStep env) (.block f s) (.field s') ∧
          (FieldsAt.field s').Fits ∧ s'.fpOpen = false ∧ s'.buf ++ unread s'.world = rest)) := by
  induction n using Nat.strong_induction_on generalizing f s key keyDec value with
  | _ n ih =>
    obtain ⟨v, hv⟩ : ∃ v, v = s.buf.drop f.val := ⟨_, rfl⟩
    rw [← hv] at hahead
    have hopen : s.allDataRead = false := hfits.open_data
    have hlen : s.buf.length ≤ MG_BUF_LEN - 1 := hfits.buf_le
    have hval := hfits.val_le f s rfl
    by_cases hin : value.length < v.length
    · -- the end of the value is in the buffer
      obtain ⟨y, hy, htaily⟩ := Scan.prefix_cut value tail v (unread s.world) hahead.symm
        (Nat.le_of_lt hin)
      obtain ⟨rest, hrest, y', rfl⟩ : ∃ rest, tail = AMPERSAND :: rest ∧ ∃ y', y = AMPERSAND :: y' := by
        cases y with
        | nil =>
          rw [hy, List.append_nil] at hin
          exact absurd hin (Nat.lt_irrefl _)
        | cons b y' =>
          obtain hnil | ⟨rest, hrest⟩ := htail
          · rw [hnil] at htaily
            simp at htaily
          · rw [hrest, List.cons_append, List.cons.injEq] at htaily
            exact ⟨rest, hrest, y', by rw [htaily.1]⟩
      have hfound : strchrAt v AMPERSAND = some value.length := by
        rw [hy]
        exact strchrAt_append value y' AMPERSAND (by decide) (FormValue.plain value hform)
      have hwhole : trimValue v value.length = value.length := by
        rw [hy, trimValue_append, FormValue.trim_whole value hform]
      have htake : v.take (trimValue v value.length) = value := by
        rw [hwhole, hy, List.take_left]
      have hdecoded := mgUrlDecodeInt_short v (trimValue v value.length)
        (bufLen_int (by rw [hwhole]; rw [hv, List.length_drop] at hin; omega)) (htake.symm ▸ hform)
      rw [htake] at hdecoded
      obtain ⟨r, w', hcall, habort, hnext⟩ := urlEncodedFieldGet_takes env htakes key keyDec v
        (formDecode value) value.length s hdec hdecoded
      have hsame := urlEncodedFieldGet_same env hfill.toBodyReader key v value.length s
      rw [hcall] at hsame
      have hun : unread w' = unread s.world := hsame.unread
      have hstep := blockStep_ends_value env f s _ key v r value.length _ hv.symm hget hkey hfound
        hcall habort hnext hopen hfp
      have hdrop : s.buf.drop (f.val + (value.length + 1)) = y' := by
        rw [← List.drop_drop, ← hv, hy, ← List.drop_drop, List.drop_left]
        rfl
      refine ⟨[formDecode value], _, by simp, by simp, ?_, ?_,
        Or.inr ⟨rest, hrest, Relation.ReflTransGen.single hstep, ⟨hopen, ?_, ?_⟩, hfp, ?_⟩⟩
      · exact calls_append _ _
      · rfl
      · simp only [FieldsAt.state, List.length_drop]
        omega
      · intro g u hgu
        cases hgu
      · show s.buf.drop (f.val + (value.length + 1)) ++ unread w' = rest
        rw [hrest, List.cons_append, List.cons.injEq] at htaily
        rw [hdrop, hun, htaily.2]
    · -- the block is all value
      obtain ⟨z, hz, hun⟩ := Scan.prefix_cut v (unread s.world) value tail hahead (by omega)
      have hplain : ∀ a ∈ v, a ≠ NUL ∧ a ≠ AMPERSAND := by
        intro a ha
        exact FormValue.plain value hform a (by rw [hz]; exact List.mem_append_left z ha)
      have hnone : strchrAt v AMPERSAND = none := strchrAt_eq_none _ _ (fun h => (hplain _ h).2 rfl)
      have hcstr := cstr_of_no_nul v (fun h => (hplain _ h).1 rfl)
      have hwhole : f.val + v.length = s.buf.length := by
        rw [hv, List.length_drop]
        omega
      obtain ⟨k, hk⟩ : ∃ k, k = trimValue v v.length := ⟨_, rfl⟩
      obtain ⟨htake, hdrop⟩ := FormValue.trim value hform v z hz
      rw [← hk] at htake hdrop
      have hkle : k ≤ v.length := hk ▸ trimValue_le v v.length
      have hdecode : formDecode value = formDecode (v.take k) ++ formDecode (v.drop k ++ z) := by
        rw [← formDecode_append _ _ htake, ← List.append_assoc, List.take_append_drop, ← hz]
      have hdecoded := mgUrlDecodeInt_short v k (bufLen_int (by omega)) htake
      obtain ⟨r, w', hcall, habort, hnext⟩ := urlEncodedFieldGet_takes env htakes key keyDec v
        (formDecode (v.take k)) v.length s hdec (hk ▸ hdecoded)
      have hsame := urlEncodedFieldGet_same env hfill.toBodyReader key v v.length s
      rw [hcall] at hsame
      have hun' : unread w' = unread s.world := hsame.unread
      rw [← hk] at hcall
      obtain ⟨s1, hs1⟩ : ∃ s1, s1 = { s with
          world := w'
          events := s.events ++ [FormEvent.get (cstr keyDec) (formDecode (v.take k))
            (formDecode (v.take k)).length] } := ⟨_, rfl⟩
      rw [← hs1] at hcall
      have hbuf1 : s1.buf = s.buf := by rw [hs1]
      have hw1 : unread s1.world = unread s.world := by rw [hs1]; exact hun'
      have hopen1 : s1.allDataRead = false := by rw [hs1]; exact hopen
      have hfp1 : s1.fpOpen = false := by rw [hs1]; exact hfp
      have hcount1 : s1.fieldCount = s.fieldCount := by rw [hs1]
      have hcalls1 : calls s1.events = calls s.events ++
          [FormEvent.get (cstr keyDec) (formDecode (v.take k)) (formDecode (v.take k)).length] := by
        rw [hs1]
        exact calls_append _ _
      have hstep := blockStep_delivers env f s s1 key v r k hv.symm hget hkey hnone hcstr hwhole
        hopen hcall habort hnext hfp1
      have hrest : s1.buf.drop (f.val + k) = v.drop k := by
        rw [hbuf1, ← List.drop_drop, hv]
      have hshort : v.length ≤ k + 2 := by
        rw [hk]
        unfold trimValue
        split_ifs <;> omega
      have hroom : (s1.buf.drop (f.val + k)).length < MG_BUF_LEN - 1 := by
        have : 2 < MG_BUF_LEN - 1 := by decide
        rw [hrest, List.length_drop]
        omega
      by_cases hmore : s1.buf.drop (f.val + k) ++ unread s1.world = []
      · -- the last block of the last value
        obtain ⟨hnil, hend⟩ := List.append_eq_nil_iff.mp hmore
        obtain ⟨s2, hlast, hcount2, hevents2⟩ := blockNext_ends env hfill
          { f with getBlock := f.getBlock + 1 } (f.val + k) s1 hopen1 hfp1 hnil hend
        rw [hrest] at hnil
        rw [hw1, hun] at hend
        obtain ⟨hznil, htailnil⟩ := List.append_eq_nil_iff.mp hend
        rw [hcount1] at hlast hcount2
        refine ⟨[formDecode (v.take k)], s2, by simp, ?_, ?_, hcount2, Or.inl ⟨htailnil, ?_⟩⟩
        · rw [hdecode, hnil, hznil]
          simp [formDecode]
        · rw [hevents2, calls_append, hcalls1]
          exact List.append_nil _
        · exact Machine.Ends.last _ _ (hstep.trans hlast)
      · obtain ⟨w2, buf2, hgoes, hbuf2, hsum2, len, hw2⟩ := blockNext_fills env hfill
          { f with getBlock := f.getBlock + 1 } (f.val + k) s1 hopen1 hroom hmore
        rw [hrest, hw1] at hbuf2 hsum2
        have hahead2 : buf2 ++ unread w2 = (v.drop k ++ z) ++ tail := by
          rw [hsum2, hun, List.append_assoc]
        have hvlen : (v ++ z).length = v.length + z.length := List.length_append
        rw [← hz] at hvlen
        have hsumlen := congrArg List.length hsum2
        rw [List.length_append, List.length_append, List.length_drop] at hsumlen
        have hless : (v.drop k ++ z).length + (unread w2).length < n := by
          rw [List.length_append, List.length_drop]
          have hbuf2len := congrArg List.length hbuf2
          rw [List.length_take, List.length_append, List.length_drop] at hbuf2len
          have hbig : 3 ≤ MG_BUF_LEN - 1 := by decide
          by_cases hk0 : k = 0
          · -- nothing was delivered, so something is read
            have hpos : 0 < (unread s.world).length := by
              by_contra hzero
              have hunil : unread s.world = [] := List.eq_nil_of_length_eq_zero (by omega)
              rw [hunil] at hun
              obtain ⟨hznil, -⟩ := List.append_eq_nil_iff.mp hun.symm
              rw [hznil, List.append_nil] at hz
              have htrim := FormValue.trim_whole v (hz ▸ hform)
              have hvnil : v = [] := List.eq_nil_of_length_eq_zero (by omega)
              apply hmore
              rw [hrest, hw1, hunil, hvnil]
              simp
            omega
          · omega
        obtain ⟨chunks, s', hne, hflat, hcalls, hcount, hres⟩ := ih _ hless
          { f with getBlock := f.getBlock + 1, val := 0 }
          { s1 with world := w2, buf := buf2, events := s1.events ++ [.fill buf2.length] }
          [] [] (v.drop k ++ z) rfl
          ⟨hopen1, by rw [hbuf2]; exact List.length_take_le _ _, by
            intro g u hgu
            cases hgu
            exact Nat.zero_le _⟩
          hfp1 hget (if_pos (Nat.succ_pos _)) decodeKey_nil hdrop hahead2
        refine ⟨formDecode (v.take k) :: chunks, s', by simp, ?_, ?_, hcount.trans hcount1, ?_⟩
        · rw [List.flatten_cons, hflat, hdecode]
        · rw [hcalls, valueCalls_cons _ _ chunks hne, calls_append, hcalls1]
          simp [calls, cstr]
        · have hfirst := hstep.trans hgoes
          obtain ⟨htailnil, hends⟩ | ⟨rest, hrest', hreach, hfits', hfp', hahead'⟩ := hres
          · refine Or.inl ⟨htailnil, Machine.Ends.more _ _ _ hfirst ?_⟩
            rw [← hcount1]
            exact hends
          · exact Or.inr ⟨rest, hrest', Relation.ReflTransGen.head hfirst hreach, hfits', hfp',
              hahead'⟩

omit htakes hfill in
/-- The callbacks for a list of pairs: for each pair one call of `field_found`, and calls of `field_get`
whose data makes up the decoded value. -/
inductive Delivered : List FormPair → List FormEvent → Prop where
  | nil : Delivered [] []
  | cons (p : FormPair) (pairs : List FormPair) (chunks : List (List Byte))
      (events : List FormEvent) : chunks ≠ [] → chunks.flatten = formDecode p.2 →
      Delivered pairs events →
      Delivered (p :: pairs) (.found p.1 [] :: (valueCalls p.1 chunks ++ events))

omit hfill in
theorem fieldKey_takes (s : FormState W) (key keyDec : List Byte) (keylen : Nat)
    (hfound : strchrAt s.buf EQUALS = some keylen) (htake : s.buf.take keylen = key)
    (hdec : decodeKey key = some keyDec) :
    ∃ s', fieldKey env s =
        .inl (.block ⟨keylen, MG_FORM_FIELD_STORAGE_GET, keylen + 1, 0⟩ s') ∧ s'.buf = s.buf ∧
      s'.world = (env.fieldFound (cstr keyDec) [] s.world).2 ∧ s'.allDataRead = s.allDataRead ∧
      s'.fpOpen = s.fpOpen ∧ s'.fieldCount = s.fieldCount + 1 ∧
      s'.events = s.events ++ [.found (cstr keyDec) []] := by
  have habort : storageAborts MG_FORM_FIELD_STORAGE_GET = false := by decide
  have hstore : MG_FORM_FIELD_STORAGE_GET ≠ MG_FORM_FIELD_STORAGE_STORE := by decide
  refine ⟨(urlEncodedFieldFound env key none
    { s with fieldCount := s.fieldCount + 1, path := [] }).2, ?_, ?_⟩
  · unfold fieldKey
    simp only [hfound, htake, urlEncodedFieldFound_takes env htakes key keyDec _ hdec, habort,
      Bool.false_eq_true, if_false, if_neg hstore]
  · rw [urlEncodedFieldFound_takes env htakes key keyDec _ hdec]
    exact ⟨rfl, rfl, rfl, rfl, rfl, rfl⟩

theorem fields_deliver (pairs : List FormPair) (hpairs : ∀ p ∈ pairs, WellFormedPair p)
    (hkeys : ∀ p ∈ pairs, p.1.length < 1024) (s : FormState W) (hfits : (FieldsAt.field s).Fits)
    (hfp : s.fpOpen = false) (hahead : s.buf ++ unread s.world = joinPairs pairs) :
    ∃ (s' : FormState W) (events : List FormEvent), Machine.Ends (fieldsStep env) (.field s)
        (((s.fieldCount + pairs.length : Nat) : Int), s') ∧
      calls s'.events = calls s.events ++ events ∧ Delivered pairs events := by
  have hopen : s.allDataRead = false := hfits.open_data
  have hlen : s.buf.length ≤ MG_BUF_LEN - 1 := hfits.buf_le
  induction pairs generalizing s with
  | nil =>
    obtain ⟨hbuf, hend⟩ := List.append_eq_nil_iff.mp hahead
    obtain ⟨w', hf⟩ := fillBuf_end env hfill s hopen hbuf hend
    refine ⟨{ s with world := w', allDataRead := true, events := s.events ++ [.fill 0] }, [],
      Machine.Ends.last _ _ ?_, calls_append _ _, Delivered.nil⟩
    show fieldStep env s = _
    unfold fieldStep
    rw [if_pos (by rw [hbuf]; decide), hf]
    simp [hbuf]
  | cons p pairs ih =>
    have hp := hpairs p (by simp)
    have hkey := hkeys p (by simp)
    rw [joinPairs_cons] at hahead
    obtain ⟨w1, buf1, fills, hstep, hbuf1, hsum1, -, hfills⟩ := fieldStep_fills env hfill s p.1
      (p.2 ++ pairsTail pairs) hopen hlen
      (hkey.trans (by decide)) hahead
    have hfound : strchrAt buf1 EQUALS = some p.1.length := by
      rw [hbuf1]
      refine strchrAt_append p.1 _ EQUALS (by decide) (fun c hc => ?_)
      obtain ⟨h1, h2, -⟩ := WellFormedPair.key_plain p hp c hc
      exact ⟨h1, h2⟩
    have htake : buf1.take p.1.length = p.1 := by
      rw [hbuf1, List.take_left]
    have hdec := WellFormedPair.decodeKey_key p hp hkey
    have hcstr := WellFormedPair.key_cstr p hp
    obtain ⟨s1, hs1⟩ : ∃ s1, s1 = { s with
        world := w1, buf := buf1, events := s.events ++ fills } := ⟨_, rfl⟩
    rw [← hs1] at hstep
    obtain ⟨s2, hkeystep, hbuf2, hw2, hall2, hfp2, hcount2, hevents2⟩ := fieldKey_takes env htakes
      s1 p.1 p.1 p.1.length (by rw [hs1]; exact hfound) (by rw [hs1]; exact htake) hdec
    rw [hcstr] at hw2 hevents2
    have hbuf2' : s2.buf = buf1 := by rw [hbuf2, hs1]
    have hun2 : unread s2.world = unread w1 := by
      rw [hw2, hfill.found, hs1]
    have hopen2 : s2.allDataRead = false := by rw [hall2, hs1]; exact hopen
    have hfp2' : s2.fpOpen = false := by rw [hfp2, hs1]; exact hfp
    have hcount2' : s2.fieldCount = s.fieldCount + 1 := by rw [hcount2, hs1]
    have hcalls2 : calls s2.events = calls s.events ++ [.found p.1 []] := by
      have hnone : calls fills = [] := by
        apply List.filter_eq_nil_iff.mpr
        intro e he
        obtain ⟨m, rfl⟩ := hfills e he
        simp
      rw [hevents2, hs1, calls_append, calls_append, hnone, List.append_nil]
      rfl
    have hfirst : fieldsStep env (.field s) =
        .inl (.block ⟨p.1.length, MG_FORM_FIELD_STORAGE_GET, p.1.length + 1, 0⟩ s2) :=
      hstep.trans hkeystep
    have hdrop : s2.buf.drop (p.1.length + 1) ++ unread s2.world = p.2 ++ pairsTail pairs := by
      have hrest := congrArg (List.drop (p.1.length + 1)) hsum1
      rw [List.drop_append_of_le_length (by rw [hbuf1]; simp), ← List.drop_drop (l := p.1 ++ _),
        List.drop_left] at hrest
      rw [hbuf2', hun2]
      exact hrest
    have hfits2 : (FieldsAt.block ⟨p.1.length, MG_FORM_FIELD_STORAGE_GET, p.1.length + 1, 0⟩
        s2).Fits := by
      refine ⟨hopen2, ?_, ?_⟩
      · have hbig : 1025 ≤ MG_BUF_LEN := by decide
        simp only [FieldsAt.state]
        rw [hbuf2', hbuf1, List.length_append, List.length_cons, List.length_take]
        omega
      · intro g u hgu
        cases hgu
        rw [hbuf2', hbuf1]
        simp
    have htail : pairsTail pairs = [] ∨ ∃ rest, pairsTail pairs = AMPERSAND :: rest := by
      unfold pairsTail
      split_ifs
      · exact Or.inl rfl
      · exact Or.inr ⟨_, rfl⟩
    obtain ⟨chunks, s3, hne, hflat, hcalls3, hcount3, hres⟩ := blocks_deliver env htakes hfill _
      _ s2 p.1 p.1 p.2 (pairsTail pairs) rfl hfits2 hfp2' rfl (by rw [hbuf2']; exact htake) hdec
      hp.value htail hdrop
    rw [hcstr] at hcalls3
    obtain ⟨hnil, hends⟩ | ⟨rest, hrest, hreach, hfits3, hfp3, hahead3⟩ := hres
    · have hpairs0 : pairs = [] := by
        by_contra hcons
        rw [pairsTail, if_neg hcons] at hnil
        cases hnil
      refine ⟨s3, .found p.1 [] :: (valueCalls p.1 chunks ++ []), ?_, ?_,
        Delivered.cons p pairs chunks [] hne hflat (hpairs0 ▸ Delivered.nil)⟩
      · refine Machine.Ends.more _ _ _ hfirst ?_
        rw [hpairs0, List.length_singleton, ← hcount2']
        exact hends
      · rw [hcalls3, hcalls2]
        simp
    · have hrest' : rest = joinPairs pairs := by
        rw [pairsTail] at hrest
        split_ifs at hrest
        exact (List.cons.inj hrest).2.symm
      obtain ⟨s4, events, hends, hcalls4, hdel⟩ := ih (fun q hq => hpairs q (by simp [hq]))
        (fun q hq => hkeys q (by simp [hq])) s3 hfits3 hfp3 (hahead3.trans hrest')
        hfits3.open_data hfits3.buf_le
      refine ⟨s4, .found p.1 [] :: (valueCalls p.1 chunks ++ events), ?_, ?_,
        Delivered.cons p pairs chunks events hne hflat hdel⟩
      · refine Machine.Ends.more _ _ _ hfirst (Machine.Reaches.ends _ _ _ _ hreach ?_)
        rw [List.length_cons, Nat.add_comm pairs.length, ← Nat.add_assoc, ← hcount2', ← hcount3]
        exact hends
      · rw [hcalls4, hcalls3, hcalls2]
        simp

end

end CivetWeb
