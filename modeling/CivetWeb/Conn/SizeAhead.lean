import CivetWeb.Conn.ChunkedSpec

namespace CivetWeb

/-- Behind a `;` the byte that is left in its place, the reads up to it, and the wire behind them: a CR, or the byte in
front of a read that finds nothing. -/
def extensionAhead (x : Byte) : List (Option Byte) → Byte × Nat × List (Option Byte)
  | [] => (x, 1, [])
  | none :: wire => (x, 1, wire)
  | some b :: wire =>
    if b = CR then (b, 1, wire)
    else
      let (y, reads, rest) := extensionAhead b wire
      (y, reads + 1, rest)

/-- The next byte of the text of a size line, with an extension in front of it skipped. -/
def lenCharAhead (lenbuf : List Byte) (wire : List (Option Byte)) : Byte × Nat × List (Option Byte) :=
  let x := wire.head?.join.getD NUL
  if lenbuf ≠ [] ∧ x = SEMICOLON then
    let (y, reads, rest) := extensionAhead x wire.tail
    (y, reads + 1, rest)
  else (x, 1, wire.tail)

/-- The text of the size line at the front of a wire, without its extension and up to its LF, and the one-byte reads
that it takes; `none` where there is no size line that the server accepts. At most `n` bytes of text are left. -/
def sizeTextAhead : Nat → List Byte → List (Option Byte) → Option (List Byte × Nat)
  | 0, _, _ => none
  | n + 1, lenbuf, wire =>
    let (x, reads, rest) := lenCharAhead lenbuf wire
    if 1 < lenbuf.length ∧ x = LF ∧ lenbuf.getLast? = some CR then some (lenbuf, reads)
    else if isxdigit x = true ∨ lenbuf ≠ [] ∧ x = CR ∧ lenbuf.getLast? ≠ some CR then
      (sizeTextAhead n (lenbuf ++ [x]) rest).map fun p => (p.1, reads + p.2)
    else none

/-- The data of the chunk that comes next, if one does, ends within `int64_t`: its size, behind the bytes of the body
up to its data. -/
def Conn.NextSizeFits (conn : Conn) : Prop :=
  ∀ p ∈ sizeTextAhead (lenbufSize - 1) [] conn.wire, 0 < lineSize p.1 →
    ((conn.consumedContent + p.2 + lineSize p.1 : Nat) : Int) ≤ INT64_MAX

instance (conn : Conn) : Decidable conn.NextSizeFits := by
  unfold Conn.NextSizeFits
  infer_instance

/-- Reads of single bytes, each of which moves the length that is waited for. -/
structure Looked (conn c : Conn) (reads : Nat) (rest : List (Option Byte)) : Prop where
  moved : LineMoved conn c
  contentLen : c.contentLen = conn.contentLen + reads
  wire : c.wire = rest

theorem Looked.trans (c1 c2 c3 : Conn) (m n : Nat) (w v : List (Option Byte)) (h : Looked c1 c2 m w)
    (k : Looked c2 c3 n v) : Looked c1 c3 (m + n) v := by
  refine ⟨h.moved.trans _ _ _ k.moved, ?_, k.wire⟩
  rw [k.contentLen, h.contentLen]
  push_cast
  ring

/-- A read of one byte finds what the wire holds next. -/
theorem readOne_looked (conn : Conn) (h : conn.Placed) (hle : (conn.consumedContent : Int) ≤ conn.contentLen) :
    (readOne conn).1 = conn.wire.head?.join ∧ Looked conn (readOne conn).2 1 conn.wire.tail := by
  have hmoved := readOne_moved conn h hle
  rcases readOne_cases conn h hle with ⟨b, c, hread, hstep⟩ | ⟨c, hread, hmiss⟩
  · rw [hread] at hmoved ⊢
    have hwire := hstep.wire
    rw [List.map_singleton, List.singleton_append] at hwire
    rw [hwire]
    exact ⟨rfl, hmoved, hstep.contentLen, rfl⟩
  · rw [hread] at hmoved ⊢
    refine ⟨hmiss.nothing.symm, hmoved, ?_, hmiss.wire⟩
    rw [hmiss.frame]
    rfl

theorem extensionAhead_missed (x : Byte) (wire : List (Option Byte)) (h : wire.head?.join = none) :
    extensionAhead x wire = (x, 1, wire.tail) := by
  cases wire with
  | nil => rfl
  | cons a wire =>
    cases a with
    | none => rfl
    | some b => cases h

theorem skipExtension_looked (n : Nat) (x : Byte) (conn : Conn) (h : conn.Placed)
    (hle : (conn.consumedContent : Int) ≤ conn.contentLen) (hn : conn.unread.length < n) :
    (skipExtension n x conn).1 = (extensionAhead x conn.wire).1 ∧
      Looked conn (skipExtension n x conn).2 (extensionAhead x conn.wire).2.1 (extensionAhead x conn.wire).2.2 := by
  induction n generalizing x conn with
  | zero => omega
  | succ n ih =>
    have hlook := (readOne_looked conn h hle).2
    rcases readOne_cases conn h hle with ⟨b, c, hread, hstep⟩ | ⟨c, hread, hmiss⟩
    swap
    · rw [hread] at hlook
      rw [extensionAhead_missed x _ hmiss.nothing, skipExtension, hread]
      exact ⟨rfl, hlook⟩
    rw [hread] at hlook
    have hwire := hstep.wire
    rw [List.map_singleton, List.singleton_append] at hwire
    rw [skipExtension, hread, hwire, extensionAhead]
    rw [hwire] at hlook
    dsimp only at hlook ⊢
    by_cases hb : b = CR
    · rw [if_pos hb, if_pos hb]
      exact ⟨rfl, hlook⟩
    rw [if_neg hb, if_neg hb]
    have hlen : c.unread.length < n := by
      rw [hstep.unread, List.length_append, List.length_singleton] at hn
      omega
    obtain ⟨hres, hmore⟩ := ih b c hlook.moved.placed hlook.moved.wanting hlen
    refine ⟨hres, ?_⟩
    have hboth := hlook.trans _ _ _ _ _ _ _ hmore
    rwa [Nat.add_comm 1] at hboth

theorem readLenChar_looked (lenbuf : List Byte) (conn : Conn) (h : conn.Placed)
    (hle : (conn.consumedContent : Int) ≤ conn.contentLen) :
    (readLenChar lenbuf conn).1 = (lenCharAhead lenbuf conn.wire).1 ∧
      Looked conn (readLenChar lenbuf conn).2 (lenCharAhead lenbuf conn.wire).2.1
        (lenCharAhead lenbuf conn.wire).2.2 := by
  obtain ⟨hres, hlook⟩ := readOne_looked conn h hle
  generalize hc : readOne conn = res at hres hlook
  obtain ⟨r, c⟩ := res
  dsimp only at hres hlook
  rw [readLenChar, lenCharAhead, hc, ← hres]
  dsimp only
  by_cases hext : lenbuf ≠ [] ∧ r.getD NUL = SEMICOLON
  · rw [if_pos hext, if_pos hext]
    obtain ⟨hchar, hmore⟩ := skipExtension_looked _ (r.getD NUL) c hlook.moved.placed hlook.moved.wanting
      (Nat.lt_succ_self _)
    rw [hlook.wire] at hchar hmore
    have hboth := hlook.trans _ _ _ _ _ _ _ hmore
    rw [Nat.add_comm 1] at hboth
    exact ⟨hchar, hboth⟩
  · rw [if_neg hext, if_neg hext]
    exact ⟨rfl, hlook⟩

/-- What comes of a size line, next to what the wire held of one. -/
inductive SizeRead (conn : Conn) : Option (List Byte × Nat) → Option Nat × Conn → Prop where
  | failed (c : Conn) : SizeRead conn none (none, c)
  | read (text : List Byte) (reads v : Nat) (rest : List (Option Byte)) (c : Conn) : Looked conn c reads rest →
      v = min ULONG_MAX (lineSize text) → SizeRead conn (some (text, reads)) (some v, afterSize c v)

theorem SizeRead.behind (conn c1 : Conn) (reads : Nat) (rest : List (Option Byte)) (p : Option (List Byte × Nat))
    (r : Option Nat × Conn) (h : Looked conn c1 reads rest) (hr : SizeRead c1 p r) :
    SizeRead conn (p.map fun p => (p.1, reads + p.2)) r := by
  cases hr with
  | failed c => exact .failed c
  | read text more v end_ c hmore hv => exact .read text _ v end_ c (h.trans _ _ _ _ _ _ _ hmore) hv

/-- `strtoul` takes the digits in front of the first CR. -/
theorem SizeText.value (lenbuf line : List Byte) (h : SizeText lenbuf line) (hlast : lenbuf.getLast? = some CR) :
    ∃ more, strtoul 16 (lenbuf ++ [LF]) = (min ULONG_MAX (lineSize lenbuf), CR :: more) := by
  cases h with
  | digits _ hds => exact absurd (List.mem_of_getLast? hlast) (xdigits_clean _ hds).1
  | behind ds more tail hne hds =>
    have hsize : lineSize (ds ++ CR :: more) = hexValue ds :=
      lineSize_eq ds (CR :: more) hds (by rintro a ⟨⟩; decide)
    rw [hsize, List.append_assoc, List.cons_append]
    exact ⟨_, strtoul_lenbuf ds (more ++ [LF]) hne hds⟩

/-- The loop over the size line comes to what the wire holds. -/
theorem readSizeLine_looked (n : Nat) (lenbuf : List Byte) (conn : Conn) (h : conn.Placed)
    (hle : (conn.consumedContent : Int) ≤ conn.contentLen) (ht : SizeText lenbuf lenbuf) :
    SizeRead conn (sizeTextAhead n lenbuf conn.wire) (readSizeLine n lenbuf conn) := by
  have hcrlf : LF ≠ CR := by decide
  induction n generalizing lenbuf conn with
  | zero => exact .failed _
  | succ n ih =>
    obtain ⟨hx, hlook⟩ := readLenChar_looked lenbuf conn h hle
    generalize hread : readLenChar lenbuf conn = res at hx hlook
    generalize hahead : lenCharAhead lenbuf conn.wire = ahead at hx hlook
    obtain ⟨x, c1⟩ := res
    obtain ⟨y, reads, rest⟩ := ahead
    obtain rfl : x = y := hx
    dsimp only at hlook
    rw [readSizeLine_turn n lenbuf conn c1 x hread, sizeTextAhead, hahead]
    dsimp only
    have hmore (hnext : SizeText (lenbuf ++ [x]) (lenbuf ++ [x])) :
        SizeRead conn ((sizeTextAhead n (lenbuf ++ [x]) rest).map fun p => (p.1, reads + p.2))
          (readSizeLine n (lenbuf ++ [x]) c1) := by
      have hbehind := ih (lenbuf ++ [x]) c1 hlook.moved.placed hlook.moved.wanting hnext
      rw [hlook.wire] at hbehind
      exact hbehind.behind _ _ _ _ _ _ hlook
    by_cases hcr : lenbuf ≠ [] ∧ x = CR ∧ lenbuf.getLast? ≠ some CR
    · rw [if_pos hcr, if_neg (fun hend => hcr.2.2 hend.2.2), if_pos (Or.inr hcr)]
      apply hmore
      have hnext := ht.cr lenbuf lenbuf [] hcr.1 (Or.inl rfl)
      rwa [List.nil_append, ← hcr.2.1] at hnext
    rw [if_neg hcr]
    by_cases hend : 1 < lenbuf.length ∧ x = LF ∧ lenbuf.getLast? = some CR
    · obtain ⟨more, hnum⟩ := ht.value lenbuf lenbuf hend.2.2
      rw [if_pos hend, if_pos hend, hend.2.1, hnum, if_neg (by simp)]
      exact .read lenbuf reads _ rest c1 hlook rfl
    rw [if_neg hend, if_neg hend]
    by_cases hxd : isxdigit x = true
    · have hgo : ¬ (!isxdigit x) = true := by simp [hxd]
      rw [if_neg hgo, if_pos (Or.inl hxd)]
      exact hmore (ht.xdigit lenbuf lenbuf x hxd)
    · have hstop : (!isxdigit x) = true := by simpa using hxd
      rw [if_pos hstop, if_neg (not_or.mpr ⟨hxd, hcr⟩)]
      exact .failed _

theorem extensionAhead_cr (x : Byte) (ext : List Byte) (rest : List (Option Byte)) (h : CR ∉ ext) :
    extensionAhead x (ext.map some ++ some CR :: rest) = (CR, ext.length + 1, rest) := by
  induction ext generalizing x with
  | nil => rfl
  | cons b ext ih =>
    rw [List.mem_cons, not_or] at h
    rw [List.map_cons, List.cons_append, extensionAhead, if_neg (Ne.symm h.1), ih b h.2, List.length_cons]

theorem lenCharAhead_some (lenbuf : List Byte) (b : Byte) (rest : List (Option Byte)) (h : b ≠ SEMICOLON) :
    lenCharAhead lenbuf (some b :: rest) = (b, 1, rest) := by
  rw [lenCharAhead, if_neg (fun hx => h hx.2)]
  rfl

/-- The CR that ends a line comes in the place of its extension. -/
theorem lenCharAhead_ext (lenbuf ext : List Byte) (rest : List (Option Byte)) (hne : lenbuf ≠ []) (h : ChunkExt ext) :
    lenCharAhead lenbuf (ext.map some ++ some CR :: rest) = (CR, ext.length + 1, rest) := by
  cases ext with
  | nil => exact lenCharAhead_some lenbuf CR rest (by decide)
  | cons b ext =>
    obtain rfl := h.1 b rfl
    have hcr : CR ∉ ext := fun hm => h.2.1 (List.mem_cons_of_mem _ hm)
    rw [List.map_cons, List.cons_append, lenCharAhead, if_pos ⟨hne, rfl⟩, List.tail_cons, extensionAhead_cr _ _ _ hcr]
    rfl

theorem sizeTextAhead_digits (n : Nat) (lenbuf digits : List Byte) (wire : List (Option Byte))
    (h : ∀ a ∈ digits, isxdigit a = true) :
    sizeTextAhead (digits.length + n) lenbuf (digits.map some ++ wire) =
      (sizeTextAhead n (lenbuf ++ digits) wire).map fun p => (p.1, digits.length + p.2) := by
  induction digits generalizing lenbuf with
  | nil => simp
  | cons d digits ih =>
    have hd := h d (by simp)
    obtain ⟨-, hlf, hsemi⟩ := isxdigit_ne d hd
    rw [List.length_cons, Nat.add_right_comm, sizeTextAhead, List.map_cons, List.cons_append,
      lenCharAhead_some _ _ _ hsemi]
    dsimp only
    rw [if_neg (fun hend => hlf hend.2.1), if_pos (Or.inl hd), ih _ (fun a ha => h a (by simp [ha])), Option.map_map]
    simp only [List.append_assoc, List.singleton_append, Function.comp_def, Nat.add_comm 1, Nat.add_right_comm _ _ 1]

/-- A size line of the grammar names its size, and takes a read for each of its bytes. -/
theorem sizeTextAhead_clean (digits ext : List Byte) (rest : List (Option Byte)) (hne : digits ≠ [])
    (hdigits : ∀ a ∈ digits, isxdigit a = true) (hext : ChunkExt ext) (hlen : digits.length + 2 < lenbufSize) :
    ∃ text, lineSize text = hexValue digits ∧
      sizeTextAhead (lenbufSize - 1) [] ((digits ++ ext ++ CRLF).map some ++ rest) =
        some (text, (digits ++ ext ++ CRLF).length) := by
  have hshape : (digits ++ ext ++ CRLF).map some ++ rest =
      digits.map some ++ (ext.map some ++ some CR :: some LF :: rest) := by
    simp [CRLF]
  obtain ⟨n, hn⟩ : ∃ n, lenbufSize - 1 = digits.length + (n + 2) := ⟨lenbufSize - 3 - digits.length, by omega⟩
  have hcr : digits.getLast? ≠ some CR := fun hl => (xdigits_clean _ hdigits).1 (List.mem_of_getLast? hl)
  have hnotEnd : ¬ (1 < digits.length ∧ CR = LF ∧ digits.getLast? = some CR) := fun h => hcr h.2.2
  have hend : 1 < (digits ++ [CR]).length ∧ LF = LF ∧ (digits ++ [CR]).getLast? = some CR := by
    have hpos := List.length_pos_of_ne_nil hne
    refine ⟨?_, rfl, List.getLast?_concat⟩
    rw [List.length_append, List.length_singleton]
    omega
  refine ⟨digits ++ [CR], lineSize_eq digits [CR] hdigits (by rintro a ⟨⟩; decide), ?_⟩
  rw [hshape, hn, sizeTextAhead_digits _ _ _ _ hdigits, List.nil_append, sizeTextAhead,
    lenCharAhead_ext digits ext _ hne hext]
  dsimp only
  rw [if_neg hnotEnd, if_pos (Or.inr ⟨hne, rfl, hcr⟩), sizeTextAhead, lenCharAhead_some _ _ _ (by decide)]
  dsimp only
  rw [if_pos hend]
  simp [CRLF]

end CivetWeb
