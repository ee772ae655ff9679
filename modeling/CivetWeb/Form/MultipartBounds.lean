import CivetWeb.Form.FieldsStall
import CivetWeb.Form.Multipart

namespace CivetWeb

/-- The bounds that a use of part data and a value of `buf_fill` have to keep. -/
def FormEvent.InBounds : FormEvent → Prop
  | .use hend towrite bufFill => hend + towrite ≤ bufFill
  | .fill bufFill => bufFill ≤ MG_BUF_LEN - 1
  | _ => True

instance : DecidablePred FormEvent.InBounds
  | .use hend towrite bufFill => inferInstanceAs (Decidable (hend + towrite ≤ bufFill))
  | .fill bufFill => inferInstanceAs (Decidable (bufFill ≤ MG_BUF_LEN - 1))
  | .found _ _ => inferInstanceAs (Decidable True)
  | .get _ _ _ => inferInstanceAs (Decidable True)

def FormState.Bounded {W : Type} (s : FormState W) : Prop := ∀ e ∈ s.events, e.InBounds

theorem bounded_snoc (events : List FormEvent) (e : FormEvent) :
    (∀ x ∈ events ++ [e], x.InBounds) ↔ (∀ x ∈ events, x.InBounds) ∧ e.InBounds := by
  rw [List.forall_mem_append, List.forall_mem_singleton]

section
variable {W : Type}

@[simp] theorem log_bounded (s : FormState W) (e : FormEvent) :
    (s.log e).Bounded ↔ s.Bounded ∧ e.InBounds := bounded_snoc s.events e

@[simp] theorem log_buf (s : FormState W) (e : FormEvent) : (s.log e).buf = s.buf := rfl

@[simp] theorem setBuf_bounded (buf : List Byte) (s : FormState W) :
    (setBuf buf s).Bounded ↔ s.Bounded ∧ buf.length ≤ MG_BUF_LEN - 1 :=
  bounded_snoc s.events (.fill buf.length)

@[simp] theorem setBuf_buf (buf : List Byte) (s : FormState W) : (setBuf buf s).buf = buf := rfl

variable (env : FormHandler W)

/-- Calls that log nothing but calls of the callbacks, and leave the buffer alone. -/
structure Callback (s t : FormState W) : Prop where
  buf : t.buf = s.buf
  bounded : t.Bounded ↔ s.Bounded

theorem Callback.refl (s : FormState W) : Callback s s := ⟨rfl, Iff.rfl⟩

theorem Callback.trans {s t u : FormState W} (h : Callback s t) (h' : Callback t u) :
    Callback s u := ⟨h'.buf.trans h.buf, h'.bounded.trans h.bounded⟩

theorem callFieldFound_callback (key filename : List Byte) (s : FormState W) :
    Callback s (callFieldFound env key filename s).2 := by
  unfold callFieldFound
  dsimp only
  split_ifs <;> exact ⟨rfl, (bounded_snoc s.events _).trans (and_iff_left trivial)⟩

theorem urlEncodedFieldFound_callback (key : List Byte) (filename : Option (List Byte))
    (s : FormState W) : Callback s (urlEncodedFieldFound env key filename s).2 := by
  unfold urlEncodedFieldFound
  cases decodeKey key with
  | none => exact Callback.refl s
  | some keyDec =>
    cases filename with
    | none => exact callFieldFound_callback env (cstr keyDec) [] s
    | some filename =>
      dsimp only
      cases decodeKey filename with
      | none => exact Callback.refl s
      | some filenameDec => exact callFieldFound_callback env _ _ s

theorem unencodedFieldGet_callback (key value : List Byte) (n : Nat) (s : FormState W) :
    Callback s (unencodedFieldGet env key value n s).2 := by
  unfold unencodedFieldGet
  cases decodeKey key with
  | none => exact Callback.refl s
  | some keyDec =>
    exact ⟨rfl, (bounded_snoc s.events _).trans (and_iff_left trivial)⟩

theorem openStore_callback (s : FormState W) : Callback s (openStore env s) := ⟨rfl, Iff.rfl⟩

theorem writeStore_callback (data : List Byte) (n : Nat) (s : FormState W) :
    Callback s (writeStore env data n s) := by
  unfold writeStore
  dsimp only
  split_ifs <;> exact ⟨rfl, Iff.rfl⟩

theorem closeStore_callback (s : FormState W) : Callback s (closeStore env s).2 := by
  unfold closeStore
  dsimp only
  split_ifs <;> exact ⟨rfl, Iff.rfl⟩

theorem writeLast_callback (data : List Byte) (n : Nat) (s : FormState W) :
    Callback s (writeLast env data n s).2 := by
  unfold writeLast
  dsimp only
  split_ifs
  · exact ⟨rfl, Iff.rfl⟩
  · have h := closeStore_callback env { s with
      world := (env.fwrite data n s.world).2
      fileSize := s.fileSize + ((env.fwrite data n s.world).1.1 : Int) }
    exact ⟨h.buf, h.bounded⟩

end

/-! ### Where the bounds are missed -/

/-- The first read brings less than a boundary, and in what the buffer held before the first boundary that
the search for the end of the preamble finds lies behind what was read. -/
def StaleBoundary (boundary stale buf : List Byte) : Prop :=
  buf.length < boundary.length ∧ ∃ n ≤ 1024, buf.length < n ∧
    boundary <+: (buf ++ NUL :: stale.drop (buf.length + 1)).drop (n + 2) ∧
    ∀ m < n, ¬ boundary <+: (buf ++ NUL :: stale.drop (buf.length + 1)).drop (m + 2)

/-- A delimiter follows the empty line behind the headers of a part at once, and the data is asked for. -/
def EmptyPart {W : Type} (boundary : List Byte) (p : PartLocals) (s : FormState W) : Prop :=
  0 < p.hend ∧ ascii "--" ++ boundary <+: s.buf.drop p.hend ∧
    (p.storage = MG_FORM_FIELD_STORAGE_GET ∨
      (p.storage = MG_FORM_FIELD_STORAGE_STORE ∧ s.fpOpen = true))

section
variable {W : Type} (env : FormHandler W) (boundary stale : List Byte)

/-- The state before a step that keeps to the bounds. -/
def PartsAt.Clear : PartsAt W → Prop
  | .part first s => first = true → ∀ t, fillBuf env s = (true, t) → t.buf ≠ [] →
      ¬ StaleBoundary boundary stale t.buf
  | .block p s => ¬ EmptyPart boundary p s

def PartsAt.state : PartsAt W → FormState W
  | .part _ s => s
  | .block _ s => s

def outState : PartsAt W ⊕ FormResult W → FormState W
  | .inl p => p.state
  | .inr r => r.2

theorem outState_unbounded (x : PartsAt W ⊕ FormResult W)
    (h : ∃ e ∈ (outState x).events, ¬ e.InBounds) : ¬ (outState x).Bounded := by
  obtain ⟨e, he, hover⟩ := h
  intro hall
  exact hover (hall e he)

/-- Where the offsets of a part lie in the buffer. The search for the delimiter starts two bytes
before the data. -/
structure PartLocals.Fits (p : PartLocals) (buf : List Byte) : Prop where
  hend_le : p.hend ≤ buf.length
  next_le : ∀ n, p.next = some n → n + (boundary.length + 4) ≤ buf.length
  next_ge : ∀ n, p.next = some n → p.hend ≤ n ∨
    (n + 2 = p.hend ∧ ascii "--" ++ boundary <+: buf.drop p.hend)
  next_empty : 0 < p.hend → ascii "--" ++ boundary <+: buf.drop p.hend →
    p.next = some (p.hend - 2) ∧ 2 ≤ p.hend

def PartsAt.Fits : PartsAt W → Prop
  | .part _ s => s.buf.length ≤ MG_BUF_LEN - 1
  | .block p s => s.buf.length ≤ MG_BUF_LEN - 1 ∧ p.Fits boundary s.buf

theorem sizeSub_le (a b : Nat) (hle : b ≤ a) (ha : a < 2 ^ 64) : sizeSub a b = a - b := by
  unfold sizeSub
  omega

theorem sizeSub_gt (a b : Nat) (hlt : a < b) (hb : b < 2 ^ 64) : sizeSub a b = 2 ^ 64 - (b - a) := by
  unfold sizeSub
  omega

theorem searchBoundary_le (buf : List Byte) (n : Nat) (h : searchBoundary buf boundary = some n) :
    n + (boundary.length + 4) ≤ buf.length := by
  have := Scan.find_le _ _ _ h
  simp only [DELIMITER_START, List.length_append, List.length_cons, List.length_nil] at this
  omega

theorem strncmp_eq_zero (s t : List Byte) (ht : NUL ∉ t) : strncmp s t t.length = 0 ↔ t <+: s := by
  induction t generalizing s with
  | nil => simp [strncmp]
  | cons b t ih =>
    have hb : b ≠ NUL := fun h => ht (by simp [h])
    have ht' : NUL ∉ t := fun h => ht (by simp [h])
    rw [List.length_cons, strncmp]
    cases s with
    | nil =>
      have hne : deref [] ≠ b := hb.symm
      have hnat : b.toNat ≠ 0 := fun h => hb (UInt8.toNat_inj.mp h)
      rw [deref_cons, if_pos hne, deref_nil]
      simp only [List.prefix_nil, reduceCtorEq, iff_false]
      show ¬ ((0 : Nat) : Int) - (b.toNat : Int) = 0
      omega
    | cons a s =>
      rw [deref_cons, deref_cons, List.cons_prefix_cons, List.tail_cons, List.tail_cons]
      by_cases hab : a = b
      · subst hab
        rw [if_neg (fun h => h rfl), if_neg hb, ih s ht']
        simp
      · have hnat : a.toNat ≠ b.toNat := fun h => hab (UInt8.toNat_inj.mp h)
        rw [if_pos hab]
        constructor
        · intro h
          omega
        · rintro ⟨h, -⟩
          exact absurd h.symm hab

/-- The data of a part lies behind an empty line. -/
theorem parsePartHead_part (buf : List Byte) (hend : Nat) (name : List Byte)
    (filename : Option (List Byte)) (h : parsePartHead boundary buf = .part hend name filename) :
    4 ≤ hend ∧ [CR, LF, CR, LF] <+: buf.drop (hend - 4) := by
  unfold parsePartHead at h
  dsimp only at h
  by_cases hstart : buf.length < boundary.length + 2 ∨ strncmp buf (ascii "--") 2 ≠ 0 ∨
      strncmp (buf.drop 2) boundary boundary.length ≠ 0
  · rw [if_pos hstart] at h
    cases h
  rw [if_neg hstart] at h
  by_cases hline : strncmp (buf.drop (2 + boundary.length +
      ((buf.drop (2 + boundary.length)).takeWhile isblank).length)) [CR, LF] 2 ≠ 0
  · rw [if_pos hline] at h
    split_ifs at h
  rw [if_neg hline] at h
  obtain ⟨hbuf, hhbuf⟩ : ∃ hbuf, hbuf = (buf.drop (2 + boundary.length +
      ((buf.drop (2 + boundary.length)).takeWhile isblank).length)).drop 2 := ⟨_, rfl⟩
  rw [← hhbuf] at h
  cases hf : Scan.find [CR, LF, CR, LF] (cstr hbuf) with
  | none => simp [hf] at h
  | some e =>
    simp only [hf] at h
    by_cases hrest : (parseHttpHeaders hbuf).rest.length + (e + 2) ≠ hbuf.length
    · rw [if_pos hrest] at h
      cases h
    rw [if_neg hrest] at h
    split at h
    · cases h
    · split at h
      · cases h
      · simp only [PartHead.part.injEq] at h
        obtain ⟨hhend, -, -⟩ := h
        have hat := Scan.find_some_at _ _ _ hf
        have hpre : [CR, LF, CR, LF] <+: hbuf.drop e :=
          hat.trans (Scan.prefix_drop _ _ e (List.takeWhile_prefix _))
        refine ⟨by omega, ?_⟩
        rw [hhbuf, List.drop_drop, List.drop_drop] at hpre
        rw [← hhend]
        have hk : 2 + boundary.length + ((buf.drop (2 + boundary.length)).takeWhile isblank).length +
            2 + e + 4 - 4 = 2 + boundary.length +
              ((buf.drop (2 + boundary.length)).takeWhile isblank).length + (2 + e) := by omega
        rw [hk]
        exact hpre

theorem partBegin_fits (s : FormState W) (hlen : s.buf.length ≤ MG_BUF_LEN - 1) (q : PartsAt W)
    (h : partBegin env boundary s = .inl q) : q.Fits boundary := by
  unfold partBegin at h
  cases hhead : parsePartHead boundary s.buf with
  | malformed => simp [hhead] at h
  | final => simp [hhead] at h
  | part hend name filename =>
    obtain ⟨h4, hcrlf⟩ := parsePartHead_part boundary s.buf hend name filename hhead
    have hle := hcrlf.length_le
    simp only [List.length_cons, List.length_nil, List.length_drop] at hle
    simp only [hhead, Sum.inl.injEq] at h
    obtain ⟨s1, hs1⟩ : ∃ s1, s1 = (urlEncodedFieldFound env name filename
        { s with fieldCount := s.fieldCount + 1, path := [] }).2 := ⟨_, rfl⟩
    have hbuf1 : s1.buf = s.buf := by
      rw [hs1]
      exact (urlEncodedFieldFound_callback env name filename _).buf
    rw [← hs1] at h
    -- the two bytes before the data are a CRLF
    have hcut : s.buf.drop (hend - 2) = CR :: LF :: s.buf.drop hend := by
      obtain ⟨z, hz⟩ := hcrlf
      have h2 : hend - 2 = hend - 4 + 2 := by omega
      have h0 : hend = hend - 4 + 4 := by omega
      conv_rhs => rw [h0]
      rw [h2, ← List.drop_drop, ← List.drop_drop, ← hz]
      rfl
    have hfits : PartLocals.Fits boundary ⟨hend, name, (urlEncodedFieldFound env name filename
        { s with fieldCount := s.fieldCount + 1, path := [] }).1, 0,
        (searchBoundary (s.buf.drop (hend - 2)) boundary).map (· + (hend - 2))⟩ s.buf := by
      refine ⟨by dsimp only; omega, ?_, ?_, ?_⟩
      · intro n hn
        obtain ⟨m, hm, rfl⟩ := Option.map_eq_some_iff.mp hn
        have := searchBoundary_le boundary _ m hm
        rw [List.length_drop] at this
        omega
      · intro n hn
        obtain ⟨m, hm, rfl⟩ := Option.map_eq_some_iff.mp hn
        have hat := Scan.find_some_at _ _ m hm
        rw [hcut] at hat
        match m with
        | 0 =>
          right
          refine ⟨by dsimp only; omega, ?_⟩
          simpa [DELIMITER_START, ascii] using hat
        | 1 =>
          have hne : CR ≠ LF := by decide
          simp [DELIMITER_START, hne] at hat
        | m + 2 =>
          left
          dsimp only
          omega
      · intro _ hpre
        refine ⟨?_, by dsimp only; omega⟩
        have hfind : searchBoundary (s.buf.drop (hend - 2)) boundary = some 0 := by
          apply Scan.find_eq_some
          · rw [List.drop_zero, hcut]
            simpa [DELIMITER_START, ascii] using hpre
          · intro j hj
            omega
        simp only [hfind, Option.map_some, Nat.zero_add]
    rw [hbuf1] at h
    subst h
    dsimp only [PartsAt.Fits]
    split_ifs
    · rw [(openStore_callback env s1).buf, hbuf1]
      exact ⟨hlen, hfits⟩
    · rw [hbuf1]
      exact ⟨hlen, hfits⟩

theorem partBegin_bounded (s : FormState W) :
    (outState (partBegin env boundary s)).Bounded ↔ s.Bounded := by
  unfold partBegin
  cases parsePartHead boundary s.buf with
  | malformed => rfl
  | final => rfl
  | part hend name filename =>
    have hf := urlEncodedFieldFound_callback env name filename
      { s with fieldCount := s.fieldCount + 1, path := [] }
    dsimp only [outState, PartsAt.state]
    split_ifs
    · exact (openStore_callback env _).bounded.trans hf.bounded
    · exact hf.bounded

/-- The loop over the preamble stops at the first place where the boundary stands two bytes on. -/
theorem skipPreamble_spec (mem : List Byte) (limit n k : Nat) :
    k ≤ skipPreamble boundary mem limit n k ∧ skipPreamble boundary mem limit n k ≤ k + n ∧
    (∀ m, k ≤ m → m < skipPreamble boundary mem limit n k → m < limit ∧
      strncmp (mem.drop (m + 2)) boundary boundary.length ≠ 0) ∧
    (skipPreamble boundary mem limit n k < k + n →
      limit ≤ skipPreamble boundary mem limit n k ∨
        strncmp (mem.drop (skipPreamble boundary mem limit n k + 2)) boundary boundary.length = 0) := by
  induction n generalizing k with
  | zero =>
    refine ⟨Nat.le_refl k, Nat.le_refl _, ?_, ?_⟩
    · intro m hk hm
      simp only [skipPreamble] at hm
      omega
    · intro h
      simp only [skipPreamble] at h
      omega
  | succ n ih =>
    rw [skipPreamble]
    by_cases hc : k < limit ∧ strncmp (mem.drop (k + 2)) boundary boundary.length ≠ 0
    · rw [if_pos hc]
      obtain ⟨h1, h2, h3, h4⟩ := ih (k + 1)
      refine ⟨by omega, by omega, ?_, fun h => h4 (by omega)⟩
      intro m hk hm
      by_cases hmk : m = k
      · rw [hmk]
        exact hc
      · exact h3 m (by omega) hm
    · rw [if_neg hc]
      refine ⟨Nat.le_refl k, by omega, fun m hk hm => by omega, fun _ => ?_⟩
      by_cases hlim : k < limit
      · right
        by_contra hne
        exact hc ⟨hlim, hne⟩
      · exact Or.inl (by omega)

/-- Without its preamble the body stays within the buffer, unless a stale boundary is found. -/
theorem removePreamble_spec (s : FormState W) (hnul : NUL ∉ boundary) (hbl : boundary.length ≤ 70)
    (hlen : s.buf.length ≤ MG_BUF_LEN - 1) :
    ((removePreamble boundary stale s).1.Bounded ↔ s.Bounded ∧ ¬ StaleBoundary boundary stale s.buf) ∧
    (removePreamble boundary stale s).1.buf.length ≤ MG_BUF_LEN - 1 := by
  have hbig : MG_BUF_LEN - 1 = 8191 := rfl
  obtain ⟨mem, hmem⟩ : ∃ mem, mem = s.buf ++ NUL :: stale.drop (s.buf.length + 1) := ⟨_, rfl⟩
  obtain ⟨limit, hlimit⟩ : ∃ limit, limit = sizeSub s.buf.length boundary.length := ⟨_, rfl⟩
  have hwrap : s.buf.length < boundary.length → 1024 ≤ limit := by
    intro hshort
    rw [hlimit, sizeSub_gt _ _ hshort (by omega)]
    omega
  obtain ⟨n, hn⟩ : ∃ n, n = skipPreamble boundary mem limit 1024 0 := ⟨_, rfl⟩
  obtain ⟨-, hle, hbefore, hstop⟩ := skipPreamble_spec boundary mem limit 1024 0
  rw [← hn, Nat.zero_add] at hle hstop
  rw [← hn] at hbefore
  have hmatch : ∀ m, strncmp (mem.drop (m + 2)) boundary boundary.length = 0 ↔
      boundary <+: mem.drop (m + 2) := fun m => strncmp_eq_zero _ _ hnul
  have hstale : StaleBoundary boundary stale s.buf ↔
      s.buf.length < boundary.length ∧ ∃ n ≤ 1024, s.buf.length < n ∧
        boundary <+: mem.drop (n + 2) ∧ ∀ m < n, ¬ boundary <+: mem.drop (m + 2) := by
    rw [StaleBoundary, ← hmem]
  unfold removePreamble
  dsimp only
  rw [← hmem, ← hlimit, ← hn, hstale]
  by_cases hfound : strncmp (mem.drop (n + 2)) boundary boundary.length = 0
  · rw [if_pos hfound]
    by_cases hin : n ≤ s.buf.length
    · rw [if_pos hin]
      have hfits : (s.buf.drop n).length ≤ MG_BUF_LEN - 1 := by
        rw [List.length_drop]
        omega
      refine ⟨?_, hfits⟩
      rw [setBuf_bounded, and_iff_left hfits, and_iff_left]
      rintro ⟨-, k, -, hk, -, hfirst⟩
      exact hfirst n (by omega) ((hmatch n).mp hfound)
    · rw [if_neg hin]
      refine ⟨?_, hlen⟩
      have hover : ¬ (FormEvent.fill (sizeSub s.buf.length n)).InBounds := by
        rw [sizeSub_gt _ _ (by omega) (by omega)]
        simp only [FormEvent.InBounds]
        omega
      rw [log_bounded]
      refine ⟨fun h => absurd h.2 hover, fun h => absurd ?_ h.2⟩
      refine ⟨?_, n, hle, by omega, (hmatch n).mp hfound, ?_⟩
      · by_contra hshort
        rw [sizeSub_le _ _ (by omega) (by omega)] at hlimit
        have := (hbefore s.buf.length (Nat.zero_le _) (by omega)).1
        have hpos := (hbefore (n - 1) (Nat.zero_le _) (by omega)).1
        omega
      · intro m hm hpre
        exact (hbefore m (Nat.zero_le _) hm).2 ((hmatch m).mpr hpre)
  · rw [if_neg hfound]
    refine ⟨?_, hlen⟩
    rw [and_iff_left]
    rintro ⟨hshort, k, hk, -, hpre, -⟩
    obtain hlt | heq | hgt := Nat.lt_trichotomy n k
    · have hearly : n < 1024 := Nat.lt_of_lt_of_le hlt hk
      rcases hstop hearly with h | h
      · exact absurd (hearly.trans_le (hwrap hshort)) (Nat.not_lt.mpr h)
      · exact hfound h
    · rw [heq] at hfound
      exact hfound ((hmatch k).mpr hpre)
    · exact (hbefore k (Nat.zero_le _) hgt).2 ((hmatch k).mpr hpre)

theorem fillBuf_bounded (s t : FormState W) (hlen : s.buf.length ≤ MG_BUF_LEN - 1) (ok : Bool)
    (h : fillBuf env s = (ok, t)) :
    (t.Bounded ↔ s.Bounded) ∧ t.buf.length ≤ MG_BUF_LEN - 1 := by
  unfold fillBuf at h
  cases hr : env.mgRead (MG_BUF_LEN - 1 - s.buf.length) s.world with
  | mk res w =>
    rw [hr] at h
    cases res with
    | none =>
      cases h
      exact ⟨Iff.rfl, hlen⟩
    | some r =>
      dsimp only at h
      by_cases hstop : r.val = [] ∧ s.allDataRead = true
      · rw [if_pos hstop] at h
        cases h
        exact ⟨Iff.rfl, hlen⟩
      · rw [if_neg hstop] at h
        cases h
        have hle : (s.buf ++ r.val).length ≤ MG_BUF_LEN - 1 := by
          have := r.property
          rw [List.length_append]
          omega
        refine ⟨?_, hle⟩
        exact (bounded_snoc s.events _).trans (and_iff_left hle)

/-- A turn up to the data of a part keeps to the bounds exactly where no stale boundary is taken for
the start of the body. -/
theorem partStep_spec (first : Bool) (s : FormState W) (hnul : NUL ∉ boundary)
    (hbl : boundary.length ≤ 70) (hlen : s.buf.length ≤ MG_BUF_LEN - 1) :
    ((outState (partStep env boundary stale first s)).Bounded ↔
      s.Bounded ∧ (PartsAt.part first s).Clear env boundary stale) ∧
    (∀ q, partStep env boundary stale first s = .inl q → q.Fits boundary) := by
  unfold partStep
  cases hf : fillBuf env s with
  | mk ok t =>
    obtain ⟨hb, hle⟩ := fillBuf_bounded env s t hlen ok hf
    have hclear : (PartsAt.part first s).Clear env boundary stale ↔
        (first = true → ok = true → t.buf ≠ [] → ¬ StaleBoundary boundary stale t.buf) := by
      constructor
      · intro h hfirst hok hne
        exact h hfirst t (by rw [hf, hok]) hne
      · intro h hfirst u hu hne
        rw [hf] at hu
        cases hu
        exact h hfirst rfl hne
    rw [hclear]
    cases ok with
    | false =>
      refine ⟨?_, fun q hq => by cases hq⟩
      show t.Bounded ↔ _
      simpa using hb
    | true =>
      dsimp only
      by_cases hempty : t.buf.length < 1
      · rw [if_pos hempty]
        have hnil : t.buf = [] := List.eq_nil_of_length_eq_zero (by omega)
        refine ⟨?_, fun q hq => by cases hq⟩
        show t.Bounded ↔ _
        simpa [hnil] using hb
      rw [if_neg hempty]
      have hne : t.buf ≠ [] := by
        intro hnil
        rw [hnil] at hempty
        exact hempty Nat.one_pos
      cases first with
      | false =>
        rw [if_neg Bool.false_ne_true]
        refine ⟨?_, fun q hq => partBegin_fits env boundary t hle q hq⟩
        rw [partBegin_bounded, hb]
        simp
      | true =>
        rw [if_pos rfl]
        obtain ⟨hbounded, hfits⟩ := removePreamble_spec boundary stale t hnul hbl hle
        cases hrem : removePreamble boundary stale t with
        | mk u found =>
          rw [hrem] at hbounded hfits
          cases found with
          | true =>
            refine ⟨?_, fun q hq => partBegin_fits env boundary u hfits q hq⟩
            rw [partBegin_bounded, hbounded, hb]
            simp [hne]
          | false =>
            refine ⟨?_, fun q hq => by cases hq⟩
            show u.Bounded ↔ _
            rw [hbounded, hb]
            simp [hne]

/-- The data of a part is handed to `field_get` or written to a file. -/
def AsksData {W : Type} (p : PartLocals) (s : FormState W) : Prop :=
  p.storage = MG_FORM_FIELD_STORAGE_GET ∨
    (p.storage = MG_FORM_FIELD_STORAGE_STORE ∧ s.fpOpen = true)

theorem partFinish_spec (p : PartLocals) (storage : UInt32) (stop : Bool) (s : FormState W)
    (hlen : s.buf.length ≤ MG_BUF_LEN - 1) :
    ((outState (partFinish p storage stop s)).Bounded ↔ s.Bounded) ∧
    (∀ q, partFinish p storage stop s = .inl q → q.Fits boundary) := by
  have hdrop : ∀ n, (s.buf.drop n).length ≤ MG_BUF_LEN - 1 := by
    intro n
    rw [List.length_drop]
    omega
  unfold partFinish
  split_ifs
  · exact ⟨Iff.rfl, fun q hq => by cases hq⟩
  · cases p.next with
    | some n =>
      refine ⟨(setBuf_bounded _ s).trans (and_iff_left (hdrop _)), ?_⟩
      intro q hq
      cases hq
      exact hdrop _
    | none =>
      refine ⟨(setBuf_bounded _ s).trans (and_iff_left (Nat.zero_le _)), ?_⟩
      intro q hq
      cases hq
      exact Nat.zero_le _

theorem partEnd_spec (p : PartLocals) (s : FormState W) (hlen : s.buf.length ≤ MG_BUF_LEN - 1) :
    ((outState (partEnd env p s)).Bounded ↔ s.Bounded ∧
      (AsksData p s → p.hend + (p.next.map (sizeSub · p.hend)).getD 0 ≤ s.buf.length)) ∧
    (∀ q, partEnd env p s = .inl q → q.Fits boundary) := by
  obtain ⟨towrite, htowrite⟩ : ∃ n, n = (p.next.map (sizeSub · p.hend)).getD 0 := ⟨_, rfl⟩
  obtain ⟨s0, hs0⟩ : ∃ s0, s0 = s.log (.use p.hend towrite s.buf.length) := ⟨_, rfl⟩
  have hb0 : s0.Bounded ↔ s.Bounded ∧ p.hend + towrite ≤ s.buf.length := by
    rw [hs0]
    exact log_bounded s _
  have hbuf0 : s0.buf = s.buf := by rw [hs0, log_buf]
  rw [← htowrite]
  unfold partEnd
  simp only [← htowrite, ← hs0]
  by_cases hg : p.storage = MG_FORM_FIELD_STORAGE_GET
  · have hasks : AsksData p s := Or.inl hg
    have hcall := unencodedFieldGet_callback env p.key (s.buf.drop p.hend) towrite s0
    have hlen1 := hlen
    rw [← hbuf0, ← hcall.buf] at hlen1
    rw [if_pos hg]
    simp only [hasks, true_imp_iff]
    rw [← hb0, ← hcall.bounded]
    split_ifs
    · exact ⟨Iff.rfl, fun q hq => by cases hq⟩
    · exact partFinish_spec boundary p _ false _ hlen1
    · exact partFinish_spec boundary p _ false _ hlen1
  · rw [if_neg hg]
    by_cases hs : p.storage = MG_FORM_FIELD_STORAGE_STORE ∧ s.fpOpen = true
    · have hasks : AsksData p s := Or.inr hs
      have hcall := writeLast_callback env (s.buf.drop p.hend) towrite s0
      have hlen1 := hlen
      rw [← hbuf0, ← hcall.buf] at hlen1
      rw [if_pos hs]
      simp only [hasks, true_imp_iff]
      rw [← hb0, ← hcall.bounded]
      exact partFinish_spec boundary p p.storage _ _ hlen1
    · have hasks : ¬ AsksData p s := by
        rintro (h | h)
        · exact hg h
        · exact hs h
      rw [if_neg hs]
      simp only [hasks, false_imp_iff, and_true]
      exact partFinish_spec boundary p p.storage false s hlen

/-- No delimiter is in sight: the last block of the data is empty. -/
theorem partEnd_none (p : PartLocals) (s : FormState W) (hlen : s.buf.length ≤ MG_BUF_LEN - 1)
    (hnext : p.next = none) (hhend : p.hend ≤ s.buf.length) :
    ((outState (partEnd env p s)).Bounded ↔ s.Bounded) ∧
    (∀ q, partEnd env p s = .inl q → q.Fits boundary) := by
  obtain ⟨hbounded, hq⟩ := partEnd_spec env boundary p s hlen
  refine ⟨?_, hq⟩
  rw [hnext, Option.map_none, Option.getD_none] at hbounded
  rw [hbounded]
  apply and_iff_left
  intro _
  exact hhend

theorem blockRefill_spec (p : PartLocals) (towrite : Nat) (s : FormState W)
    (hbl : boundary.length ≤ 70) :
    ((outState (blockRefill env boundary p towrite s)).Bounded ↔ s.Bounded) ∧
    (∀ q, blockRefill env boundary p towrite s = .inl q → q.Fits boundary) := by
  have hbig : MG_BUF_LEN - 1 = 8191 := rfl
  obtain ⟨s0, hs0⟩ : ∃ s0, s0 = setBuf
      ((s.buf.drop (p.hend + towrite)).take (boundary.length + 4)) s := ⟨_, rfl⟩
  have hlen0 : s0.buf.length ≤ MG_BUF_LEN - 1 := by
    rw [hs0, setBuf_buf, List.length_take]
    omega
  have hb0 : s0.Bounded ↔ s.Bounded := by
    rw [hs0, setBuf_bounded, and_iff_left]
    rwa [hs0, setBuf_buf] at hlen0
  unfold blockRefill
  dsimp only
  rw [← hs0]
  cases hr : env.mgRead (MG_BUF_LEN - 1 - s0.buf.length) s0.world with
  | mk res w =>
    cases res with
    | none =>
      refine ⟨?_, fun q hq => by cases hq⟩
      dsimp only [outState]
      split_ifs <;> exact hb0
    | some r =>
      dsimp only
      by_cases hstop : r.val = [] ∧ s0.allDataRead = true
      · rw [if_pos hstop]
        refine ⟨?_, fun q hq => by cases hq⟩
        dsimp only [outState]
        split_ifs <;> exact hb0
      · rw [if_neg hstop]
        have hlen1 : (s0.buf ++ r.val).length ≤ MG_BUF_LEN - 1 := by
          have := r.property
          rw [List.length_append]
          omega
        have hb1 := ((setBuf_bounded (s0.buf ++ r.val) { s0 with world := w }).trans
          (and_iff_left hlen1)).trans hb0
        have hfits : PartLocals.Fits boundary
            { p with hend := 0, next := searchBoundary (s0.buf ++ r.val) boundary }
            (s0.buf ++ r.val) := by
          refine ⟨Nat.zero_le _, fun n hn => searchBoundary_le boundary _ n hn,
            fun n _ => Or.inl (Nat.zero_le n), fun h => absurd h (Nat.lt_irrefl 0)⟩
        refine ⟨?_, ?_⟩
        · dsimp only [outState, PartsAt.state]
          split_ifs <;> exact hb1
        · intro q hq
          cases hq
          dsimp only [PartsAt.Fits]
          split_ifs <;> exact ⟨hlen1, hfits⟩

/-- A turn over the data of a part keeps to the bounds exactly where no delimiter follows the headers
of the part at once. -/
theorem partBlock_spec (p : PartLocals) (s : FormState W) (hbl : boundary.length ≤ 70)
    (hfits : (PartsAt.block p s).Fits boundary) :
    ((outState (partBlock env boundary p s)).Bounded ↔
      s.Bounded ∧ (PartsAt.block p s).Clear env boundary stale) ∧
    (∀ q, partBlock env boundary p s = .inl q → q.Fits boundary) := by
  have hbig : MG_BUF_LEN - 1 = 8191 := rfl
  obtain ⟨hlen, hhend, hnextle, hnextge, hempty⟩ := hfits
  have hclear : (PartsAt.block p s).Clear env boundary stale ↔
      ¬ (0 < p.hend ∧ ascii "--" ++ boundary <+: s.buf.drop p.hend ∧ AsksData p s) := Iff.rfl
  rw [hclear]
  unfold partBlock
  cases hnext : p.next with
  | some n =>
    dsimp only
    obtain ⟨hbounded, hq⟩ := partEnd_spec env boundary p s hlen
    refine ⟨?_, hq⟩
    rw [hbounded, hnext, Option.map_some, Option.getD_some]
    apply and_congr_right
    intro _
    have hn := hnextle n hnext
    obtain hge | ⟨heq, hpre⟩ := hnextge n hnext
    · rw [sizeSub_le _ _ hge (by omega)]
      constructor
      · rintro - ⟨hpos, hpre, -⟩
        obtain ⟨hsome, -⟩ := hempty hpos hpre
        rw [hnext, Option.some.injEq] at hsome
        omega
      · intro _ _
        omega
    · rw [sizeSub_gt _ _ (by omega) (by omega)]
      constructor
      · rintro h ⟨-, -, hasks⟩
        have := h hasks
        omega
      · intro h hasks
        exact absurd ⟨by omega, hpre, hasks⟩ h
  | none =>
    have hclear' : ¬ (0 < p.hend ∧ ascii "--" ++ boundary <+: s.buf.drop p.hend ∧ AsksData p s) := by
      rintro ⟨hpos, hpre, -⟩
      have := (hempty hpos hpre).1
      rw [hnext] at this
      cases this
    rw [and_iff_left hclear', sizeSub_le _ _ hhend (by omega)]
    dsimp only
    by_cases hshort : s.buf.length - p.hend < boundary.length + 4
    · rw [if_pos hshort]
      exact ⟨Iff.rfl, fun q hq => by cases hq⟩
    rw [if_neg hshort]
    obtain ⟨towrite, htowrite⟩ : ∃ n, n = s.buf.length - p.hend - (boundary.length + 4) := ⟨_, rfl⟩
    rw [← htowrite]
    obtain ⟨s0, hs0⟩ : ∃ s0, s0 = s.log (.use p.hend towrite s.buf.length) := ⟨_, rfl⟩
    have hb0 : s0.Bounded ↔ s.Bounded := by
      rw [hs0, log_bounded, and_iff_left]
      show p.hend + towrite ≤ s.buf.length
      omega
    have hbuf0 : s0.buf = s.buf := by rw [hs0, log_buf]
    rw [← hs0]
    by_cases hg : p.storage = MG_FORM_FIELD_STORAGE_GET
    · rw [if_pos hg]
      obtain ⟨s1, hs1⟩ : ∃ s1, s1 =
          (unencodedFieldGet env p.key (s.buf.drop p.hend) towrite s0).2 := ⟨_, rfl⟩
      have hcall := unencodedFieldGet_callback env p.key (s.buf.drop p.hend) towrite s0
      rw [← hs1] at hcall ⊢
      have hb1 : s1.Bounded ↔ s.Bounded := hcall.bounded.trans hb0
      have hbuf1 : s1.buf = s.buf := hcall.buf.trans hbuf0
      rw [← hnext]
      split_ifs
      · have hlen1 : s1.buf.length ≤ MG_BUF_LEN - 1 := by
          rw [hbuf1]
          exact hlen
        have hhend1 : p.hend ≤ s1.buf.length := by
          rw [hbuf1]
          exact hhend
        obtain ⟨hbounded, hq⟩ := partEnd_none env boundary { p with getBlock := p.getBlock + 1 } s1
          hlen1 hnext hhend1
        exact ⟨hbounded.trans hb1, hq⟩
      · obtain ⟨hbounded, hq⟩ := blockRefill_spec env boundary
          { p with getBlock := p.getBlock + 1, storage := MG_FORM_FIELD_STORAGE_SKIP } towrite s1 hbl
        exact ⟨hbounded.trans hb1, hq⟩
      · obtain ⟨hbounded, hq⟩ := blockRefill_spec env boundary
          { p with getBlock := p.getBlock + 1 } towrite s1 hbl
        exact ⟨hbounded.trans hb1, hq⟩
    · rw [if_neg hg]
      split_ifs
      · obtain ⟨hbounded, hq⟩ := blockRefill_spec env boundary p towrite
          (writeStore env (s.buf.drop p.hend) towrite s0) hbl
        exact ⟨(hbounded.trans (writeStore_callback env _ _ s0).bounded).trans hb0, hq⟩
      · obtain ⟨hbounded, hq⟩ := blockRefill_spec env boundary p towrite s hbl
        exact ⟨hbounded, hq⟩

theorem partsStep_spec (p : PartsAt W) (hnul : NUL ∉ boundary) (hbl : boundary.length ≤ 70)
    (hfits : p.Fits boundary) :
    ((outState (partsStep env boundary stale p)).Bounded ↔
      p.state.Bounded ∧ p.Clear env boundary stale) ∧
    (∀ q, partsStep env boundary stale p = .inl q → q.Fits boundary) := by
  cases p with
  | part first s => exact partStep_spec env boundary stale first s hnul hbl hfits
  | block p s => exact partBlock_spec env boundary stale p s hbl hfits

/-- In a run over a multipart body every length handed on and every fill of the buffer is in bounds exactly
where every state before a step is clear: no delimiter follows the headers of a part at once while
its data is asked for, and no stale boundary is taken for the start of the body. -/
theorem partsRun_inBounds (w : W) (hnul : NUL ∉ boundary) (hbl : boundary.length ≤ 70) :
    (∀ p, Machine.Reaches (partsStep env boundary stale) (.part true (formInit w)) p →
      (outState (partsStep env boundary stale p)).Bounded) ↔
    (∀ p, Machine.Reaches (partsStep env boundary stale) (.part true (formInit w)) p →
      p.Clear env boundary stale) := by
  have hfits : ∀ p, Machine.Reaches (partsStep env boundary stale) (.part true (formInit w)) p →
      p.Fits boundary := by
    intro p hp
    apply Machine.reaches_invariant (partsStep env boundary stale) (PartsAt.Fits boundary) _ _ p _ hp
    · intro q q' hq hstep
      exact (partsStep_spec env boundary stale q hnul hbl hq).2 q' hstep
    · exact Nat.zero_le _
  constructor
  · intro h p hp
    exact ((partsStep_spec env boundary stale p hnul hbl (hfits p hp)).1.mp (h p hp)).2
  · intro h p hp
    rw [(partsStep_spec env boundary stale p hnul hbl (hfits p hp)).1]
    refine ⟨?_, h p hp⟩
    induction hp with
    | refl =>
      intro e he
      cases he
    | @tail q r hq hstep ih =>
      have hbounded := (partsStep_spec env boundary stale q hnul hbl (hfits q hq)).1.mpr ⟨ih, h q hq⟩
      rw [hstep] at hbounded
      exact hbounded

end

/-- Two parts with data, of which the handler asks for both. -/
def twoPartsBody : List Byte :=
  ascii "--bbbb\r\nContent-Disposition: form-data; name=\"a\"\r\n\r\nhello\r\n" ++
    ascii "--bbbb\r\nContent-Disposition: form-data; name=\"b\"\r\n\r\n-\r\n--bbbb--\r\n"

theorem partsRun_inBounds_feed :
    (∀ p, Machine.Reaches (partsStep feedHandler (ascii "bbbb") [])
      (.part true (formInit ⟨twoPartsBody, [MG_FORM_FIELD_STORAGE_GET, MG_FORM_FIELD_STORAGE_GET]⟩)) p →
      (outState (partsStep feedHandler (ascii "bbbb") [] p)).Bounded) ∧
    (∀ p, Machine.Reaches (partsStep feedHandler (ascii "bbbb") [])
      (.part true (formInit ⟨twoPartsBody, [MG_FORM_FIELD_STORAGE_GET, MG_FORM_FIELD_STORAGE_GET]⟩)) p →
      p.Clear feedHandler (ascii "bbbb") []) := by
  have hbounded : ∀ p, Machine.Reaches (partsStep feedHandler (ascii "bbbb") [])
      (.part true (formInit ⟨twoPartsBody, [MG_FORM_FIELD_STORAGE_GET, MG_FORM_FIELD_STORAGE_GET]⟩)) p →
      (outState (partsStep feedHandler (ascii "bbbb") [] p)).Bounded := by
    intro p hp
    have hall := Machine.Reaches.of_checks _
      (fun q => (outState (partsStep feedHandler (ascii "bbbb") [] q)).events.all fun e => decide e.InBounds) 8 _ p
      (by decide +kernel) hp
    simpa only [FormState.Bounded, List.all_eq_true, decide_eq_true_eq] using hall
  exact ⟨hbounded, (partsRun_inBounds feedHandler (ascii "bbbb") [] _ (by decide) (by decide)).mp hbounded⟩

/-- A part without data whose `name` is `a`, and the end of the body. -/
def emptyPartBody : List Byte :=
  ascii "--bbbb" ++ [CR, LF] ++ ascii "Content-Disposition: form-data; name=\"a\"" ++ [CR, LF, CR, LF] ++
    ascii "--bbbb--"

/-- The length given to `field_get` for a part without data wraps around, and so does `buf_fill` where one
byte was read and the boundary of an earlier request is still in the buffer. -/
theorem partsRun_inBounds_emptyPart :
    (∃ p, Machine.Reaches (partsStep feedHandler (ascii "bbbb") [])
      (.part true (formInit ⟨emptyPartBody, [MG_FORM_FIELD_STORAGE_GET]⟩)) p ∧
      ¬ (outState (partsStep feedHandler (ascii "bbbb") [] p)).Bounded) ∧
    (∃ p, Machine.Reaches (partsStep feedHandler (ascii "bbbb") (ascii "old --bbbb"))
      (.part true (formInit ⟨ascii "x", []⟩)) p ∧
      ¬ (outState (partsStep feedHandler (ascii "bbbb") (ascii "old --bbbb") p)).Bounded) := by
  constructor
  · have hleft : (partsStep feedHandler (ascii "bbbb") []
        (.part true (formInit ⟨emptyPartBody, [MG_FORM_FIELD_STORAGE_GET]⟩))).isLeft = true := by
      decide +kernel
    obtain ⟨p, hp⟩ := Sum.isLeft_iff.mp hleft
    refine ⟨p, Relation.ReflTransGen.single hp, ?_⟩
    have htwo : ∃ e ∈ (outState (Machine.runFor (partsStep feedHandler (ascii "bbbb") []) 2
        (.part true (formInit ⟨emptyPartBody, [MG_FORM_FIELD_STORAGE_GET]⟩)))).events, ¬ e.InBounds := by
      decide +kernel
    rw [Machine.runFor_step _ 1 _ p hp, Machine.runFor_one] at htwo
    exact outState_unbounded _ htwo
  · refine ⟨_, Relation.ReflTransGen.refl, ?_⟩
    apply outState_unbounded
    decide +kernel

end CivetWeb
