import CivetWeb.Lib.Hpack

/-! How a decoder reads the octets of a header block (RFC 7541, sections 5 and 6). -/

namespace Hpack

/-- The octets behind the prefix of an integer. -/
def readRest : Octets → Option (Nat × Octets)
  | [] => none
  | b :: s =>
    if b.toNat < 128 then some (b.toNat, s)
    else (readRest s).map fun (n, rest) => (b.toNat - 128 + 128 * n, rest)

def readInt (bits : Nat) : Octets → Option (Nat × Octets)
  | [] => none
  | b :: s =>
    if b.toNat % 2 ^ bits < 2 ^ bits - 1 then some (b.toNat % 2 ^ bits, s)
    else (readRest s).map fun (n, rest) => (b.toNat % 2 ^ bits + n, rest)

/-- The octets of a literal: its text as it is, or the codes of it with less than an octet of ones
behind them. -/
def Literal.Denotes (s : Literal) (data : Octets) : Prop :=
  if s.huffman then
    ∃ k < 8, Bits.ofOctets data = s.text.flatMap huffmanCode ++ List.replicate k true
  else data = s.text

def ReadsLiteral (s : Octets) (l : Literal) (rest : Octets) : Prop :=
  ∃ data, readInt 7 s = some (data.length, data ++ rest) ∧
    (∀ b ∈ s.head?, l.huffman = decide (128 ≤ b.toNat)) ∧ l.Denotes data

def ReadsName (s : Octets) : Name → Octets → Prop
  | .index i, rest => i ≠ 0 ∧ rest = s
  | .new text, rest => ReadsLiteral s text rest

/-- The first octet has these flags in front of an integer of `bits` bits. -/
def Flagged (flags bits : Nat) (s : Octets) : Prop :=
  ∃ b ∈ s.head?, flags ≤ b.toNat ∧ b.toNat < flags + 2 ^ bits

/-- The flags of a representation, and how many bits its integer has behind them. -/
def Rep.flags : Rep → Nat × Nat
  | .indexed _ => (0x80, 7)
  | .literal indexing _ _ => indexing.flags
  | .resize _ => (0x20, 5)

/-- The octets begin with a representation. -/
def ReadsRep (s : Octets) : Rep → Octets → Prop
  | .indexed i, rest => Flagged 0x80 7 s ∧ readInt 7 s = some (i, rest)
  | .literal indexing name value, rest =>
    Flagged indexing.flags.1 indexing.flags.2 s ∧
      ∃ s1 s2, readInt indexing.flags.2 s = some (name.entry, s1) ∧ ReadsName s1 name s2 ∧
        ReadsLiteral s2 value rest
  | .resize n, rest => Flagged 0x20 5 s ∧ readInt 5 s = some (n, rest)

theorem ReadsRep.flagged {s rest : Octets} {r : Rep} (h : ReadsRep s r rest) :
    Flagged r.flags.1 r.flags.2 s := by
  cases r with
  | indexed i => exact h.1
  | literal indexing name value => exact h.1
  | resize n => exact h.1

/-- The octets are a header block of these representations. -/
def ReadsBlock : Octets → List Rep → Prop
  | s, [] => s = []
  | s, r :: reps => ∃ rest, ReadsRep s r rest ∧ ReadsBlock rest reps

/-- The octets decode to a header list, and leave a dynamic table behind. -/
def Table.Decodes (limit : Nat) (t : Table) (s : Octets) (fields : List Field) (t' : Table) : Prop :=
  ∃ reps, ReadsBlock s reps ∧ t.decodeBlock limit reps = some (fields, t')

theorem readRest_encode (turns n : Nat) (rest : Octets) (hturns : n < turns) :
    readRest (encodeRest turns n ++ rest) = some (n, rest) := by
  induction turns generalizing n with
  | zero => omega
  | succ turns ih =>
    rw [encodeRest]
    split_ifs with hlast
    · have hn : (UInt8.ofNat n).toNat = n := by
        rw [UInt8.toNat_ofNat']
        omega
      rw [List.singleton_append, readRest, hn, if_pos hlast]
    · have hn : (UInt8.ofNat (128 + n % 128)).toNat = 128 + n % 128 := by
        rw [UInt8.toNat_ofNat']
        omega
      rw [List.cons_append, readRest, hn, if_neg (by omega), ih (n / 128) (by omega), Option.map_some]
      dsimp only
      rw [Nat.add_sub_cancel_left, Nat.mod_add_div]

/-- Flags above an integer are no part of it. -/
theorem readInt_encode (flags bits n : Nat) (rest : Octets) (hflags : flags % 2 ^ bits = 0)
    (hbits : flags + 2 ^ bits ≤ 256) :
    readInt bits (encodeInt flags bits n ++ rest) = some (n, rest) ∧
      Flagged flags bits (encodeInt flags bits n ++ rest) := by
  have hpos : 0 < 2 ^ bits := Nat.two_pow_pos bits
  have hoctet (v : Nat) (hv : v < 2 ^ bits) : (UInt8.ofNat (flags + v)).toNat = flags + v ∧
      (flags + v) % 2 ^ bits = v := by
    rw [UInt8.toNat_ofNat', Nat.mod_eq_of_lt (by omega : flags + v < 2 ^ 8), Nat.add_mod, hflags,
      Nat.zero_add, Nat.mod_mod, Nat.mod_eq_of_lt hv]
    exact ⟨rfl, rfl⟩
  rw [encodeInt]
  split_ifs with hshort
  · obtain ⟨hv, hmod⟩ := hoctet n (by omega)
    refine ⟨?_, _, rfl, ?_⟩
    · rw [List.singleton_append, readInt, hv, hmod, if_pos hshort]
    · rw [hv]
      omega
  · obtain ⟨hv, hmod⟩ := hoctet (2 ^ bits - 1) (by omega)
    refine ⟨?_, _, rfl, ?_⟩
    · rw [List.cons_append, readInt, hv, hmod, if_neg (Nat.lt_irrefl _),
        readRest_encode (n + 1) (n - (2 ^ bits - 1)) rest (by omega), Option.map_some]
      dsimp only
      rw [show 2 ^ bits - 1 + (n - (2 ^ bits - 1)) = n by omega]
    · rw [hv]
      omega

theorem readsLiteral_encode (l : Literal) (rest : Octets) : ReadsLiteral (l.encode ++ rest) l rest := by
  have hflags : (if l.huffman then 0x80 else 0) % 2 ^ 7 = 0 ∧
      (if l.huffman then 0x80 else 0) + 2 ^ 7 ≤ 256 := by
    cases l.huffman <;> decide
  obtain ⟨hint, b, hb, hlo, hhi⟩ :=
    readInt_encode (if l.huffman then 0x80 else 0) 7 l.body.length (l.body ++ rest) hflags.1 hflags.2
  rw [Literal.encode, List.append_assoc]
  refine ⟨l.body, hint, ?_, ?_⟩
  · intro b' hb'
    obtain rfl := Option.mem_unique hb hb'
    cases hh : l.huffman with
    | false =>
      rw [hh] at hhi
      exact (decide_eq_false (by simpa using hhi)).symm
    | true =>
      rw [hh] at hlo
      exact (decide_eq_true (by simpa using hlo)).symm
  · unfold Literal.Denotes Literal.body
    split_ifs
    · exact Bits.ofOctets_pack _
    · rfl

/-- A name by an index has one that is not 0. -/
def Rep.Named : Rep → Prop
  | .literal _ name _ => name ≠ .index 0
  | _ => True

theorem readsName_encode (name : Name) (rest : Octets) (hname : name ≠ .index 0) :
    ReadsName (name.encode ++ rest) name rest := by
  cases name with
  | index i => exact ⟨fun h0 => hname (congrArg Name.index h0), rfl⟩
  | new text => exact readsLiteral_encode text rest

/-- A representation is read as it was encoded. -/
theorem readsRep_encode (r : Rep) (rest : Octets) (hr : r.Named) : ReadsRep (r.encode ++ rest) r rest := by
  cases r with
  | indexed i => exact (readInt_encode 0x80 7 i rest (by decide) (by decide)).symm
  | resize n => exact (readInt_encode 0x20 5 n rest (by decide) (by decide)).symm
  | literal indexing name value =>
    have hflags : indexing.flags.1 % 2 ^ indexing.flags.2 = 0 ∧
        indexing.flags.1 + 2 ^ indexing.flags.2 ≤ 256 := by
      cases indexing <;> decide
    rw [Rep.encode, List.append_assoc, List.append_assoc]
    obtain ⟨hint, hflagged⟩ := readInt_encode indexing.flags.1 indexing.flags.2 name.entry
      (name.encode ++ (value.encode ++ rest)) hflags.1 hflags.2
    exact ⟨hflagged, _, _, hint, readsName_encode name _ hr, readsLiteral_encode value rest⟩

theorem readsBlock_encode (reps : List Rep) (hreps : ∀ r ∈ reps, r.Named) :
    ReadsBlock (encodeBlock reps) reps := by
  induction reps with
  | nil => rfl
  | cons r reps ih =>
    obtain ⟨hr, hrest⟩ := List.forall_mem_cons.mp hreps
    exact ⟨encodeBlock reps, readsRep_encode r _ hr, ih hrest⟩

/-! ### What is read is unique -/

/-- No text has the codes of another one in front of its padding. -/
def UniqueCodes : Prop := ∀ (text text' : Octets) (k k' : Nat), k < 8 → k' < 8 →
  text.flatMap huffmanCode ++ List.replicate k true =
    text'.flatMap huffmanCode ++ List.replicate k' true → text = text'

theorem readInt_ne_nil {bits n : Nat} {s rest : Octets} (h : readInt bits s = some (n, rest)) :
    ∃ b, s.head? = some b := by
  cases s with
  | nil => cases h
  | cons b s => exact ⟨b, rfl⟩

theorem readRest_length {n : Nat} {s rest : Octets} (h : readRest s = some (n, rest)) : rest.length < s.length := by
  induction s generalizing n with
  | nil => cases h
  | cons b s ih =>
    rw [readRest] at h
    split_ifs at h with hlast
    · obtain ⟨-, rfl⟩ := Prod.mk.inj (Option.some.inj h)
      exact Nat.lt_succ_self _
    · obtain ⟨⟨m, rest'⟩, hrest, heq⟩ := Option.map_eq_some_iff.mp h
      obtain ⟨-, rfl⟩ := Prod.mk.inj heq
      exact Nat.lt_trans (ih hrest) (Nat.lt_succ_self _)

theorem readInt_length {bits n : Nat} {s rest : Octets} (h : readInt bits s = some (n, rest)) :
    rest.length < s.length := by
  cases s with
  | nil => cases h
  | cons b s =>
    rw [readInt] at h
    split_ifs at h with hshort
    · obtain ⟨-, rfl⟩ := Prod.mk.inj (Option.some.inj h)
      exact Nat.lt_succ_self _
    · obtain ⟨⟨m, rest'⟩, hrest, heq⟩ := Option.map_eq_some_iff.mp h
      obtain ⟨-, rfl⟩ := Prod.mk.inj heq
      exact Nat.lt_trans (readRest_length hrest) (Nat.lt_succ_self _)

theorem readsLiteral_length {s rest : Octets} {l : Literal} (h : ReadsLiteral s l rest) : rest.length < s.length := by
  obtain ⟨data, hint, -, -⟩ := h
  have hlen := readInt_length hint
  rw [List.length_append] at hlen
  omega

theorem readsLiteral_unique (hcodes : UniqueCodes) {s rest rest' : Octets} {l l' : Literal}
    (h : ReadsLiteral s l rest) (h' : ReadsLiteral s l' rest') : l = l' ∧ rest = rest' := by
  obtain ⟨data, hint, hflag, hdata⟩ := h
  obtain ⟨data', hint', hflag', hdata'⟩ := h'
  rw [hint, Option.some.injEq, Prod.mk.injEq] at hint'
  obtain ⟨hlen, happend⟩ := hint'
  obtain ⟨rfl, rfl⟩ := List.append_inj happend hlen
  obtain ⟨b, hb⟩ := readInt_ne_nil hint
  have hsame : l.huffman = l'.huffman := (hflag b hb).trans (hflag' b hb).symm
  have htext : l.text = l'.text := by
    unfold Literal.Denotes at hdata hdata'
    rw [← hsame] at hdata'
    split_ifs at hdata hdata'
    · obtain ⟨k, hk, hbits⟩ := hdata
      obtain ⟨k', hk', hbits'⟩ := hdata'
      exact hcodes _ _ k k' hk hk' (hbits.symm.trans hbits')
    · exact hdata.symm.trans hdata'
  refine ⟨?_, rfl⟩
  cases l
  cases l'
  rw [Literal.mk.injEq]
  exact ⟨hsame, htext⟩

theorem flagged_meet {flags bits flags' bits' : Nat} {s : Octets} (h : Flagged flags bits s)
    (h' : Flagged flags' bits' s) : flags < flags' + 2 ^ bits' ∧ flags' < flags + 2 ^ bits := by
  obtain ⟨b, hb, hlo, hhi⟩ := h
  obtain ⟨b', hb', hlo', hhi'⟩ := h'
  obtain rfl := Option.mem_unique hb hb'
  omega

theorem readsName_unique (hcodes : UniqueCodes) {s rest rest' : Octets} {name name' : Name}
    (h : ReadsName s name rest) (h' : ReadsName s name' rest') (hentry : name.entry = name'.entry) :
    name = name' ∧ rest = rest' := by
  cases name with
  | index i =>
    cases name' with
    | index j => exact ⟨congrArg Name.index hentry, h.2.trans h'.2.symm⟩
    | new text => exact absurd hentry h.1
  | new text =>
    cases name' with
    | index j => exact absurd hentry.symm h'.1
    | new text' =>
      obtain ⟨rfl, hrest⟩ := readsLiteral_unique hcodes h h'
      exact ⟨rfl, hrest⟩

/-- What begins with a representation begins with no other one. -/
theorem readsRep_unique (hcodes : UniqueCodes) {s rest rest' : Octets} {r r' : Rep}
    (h : ReadsRep s r rest) (h' : ReadsRep s r' rest') : r = r' ∧ rest = rest' := by
  have hmeet := flagged_meet h.flagged h'.flagged
  cases r with
  | indexed i =>
    cases r' with
    | indexed j =>
      obtain ⟨rfl, hrest⟩ := Prod.mk.inj (Option.some.inj (h.2.symm.trans h'.2))
      exact ⟨rfl, hrest⟩
    | literal indexing' name' value' => cases indexing' <;> simp [Rep.flags, Indexing.flags] at hmeet
    | resize m => simp [Rep.flags] at hmeet
  | resize n =>
    cases r' with
    | indexed j => simp [Rep.flags] at hmeet
    | literal indexing' name' value' => cases indexing' <;> simp [Rep.flags, Indexing.flags] at hmeet
    | resize m =>
      obtain ⟨rfl, hrest⟩ := Prod.mk.inj (Option.some.inj (h.2.symm.trans h'.2))
      exact ⟨rfl, hrest⟩
  | literal indexing name value =>
    cases r' with
    | indexed j => cases indexing <;> simp [Rep.flags, Indexing.flags] at hmeet
    | resize m => cases indexing <;> simp [Rep.flags, Indexing.flags] at hmeet
    | literal indexing' name' value' =>
      obtain rfl : indexing = indexing' := by
        cases indexing <;> cases indexing' <;> simp [Rep.flags, Indexing.flags] at hmeet ⊢
      obtain ⟨-, s1, s2, hint, hname, hvalue⟩ := h
      obtain ⟨-, s1', s2', hint', hname', hvalue'⟩ := h'
      rw [hint, Option.some.injEq, Prod.mk.injEq] at hint'
      obtain ⟨hentry, rfl⟩ := hint'
      obtain ⟨rfl, rfl⟩ := readsName_unique hcodes hname hname' hentry
      obtain ⟨rfl, hrest⟩ := readsLiteral_unique hcodes hvalue hvalue'
      exact ⟨rfl, hrest⟩

/-- A literal field is read behind its flags and the index of its name. -/
theorem readsRep_literal (indexing : Indexing) {i : Nat} (hi : i < 2 ^ indexing.flags.2 - 1)
    {s rest : Octets} {r : Rep} (h : ReadsRep (UInt8.ofNat (indexing.flags.1 + i) :: s) r rest) :
    ∃ name value s', r = .literal indexing name value ∧ name.entry = i ∧ ReadsName s name s' ∧
      ReadsLiteral s' value rest := by
  have hflags : indexing.flags.1 % 2 ^ indexing.flags.2 = 0 ∧
      indexing.flags.1 + 2 ^ indexing.flags.2 ≤ 256 := by
    cases indexing <;> decide
  obtain ⟨hint, hflagged⟩ := readInt_encode indexing.flags.1 indexing.flags.2 i s hflags.1 hflags.2
  rw [encodeInt, if_pos hi, List.singleton_append] at hint hflagged
  have hmeet := flagged_meet h.flagged hflagged
  cases r with
  | indexed j => cases indexing <;> simp [Rep.flags, Indexing.flags] at hmeet
  | resize m => cases indexing <;> simp [Rep.flags, Indexing.flags] at hmeet
  | literal indexing' name value =>
    obtain rfl : indexing = indexing' := by
      cases indexing <;> cases indexing' <;> simp [Rep.flags, Indexing.flags] at hmeet ⊢
    obtain ⟨-, s1, s2, hint', hname, hvalue⟩ := h
    rw [hint, Option.some.injEq, Prod.mk.injEq] at hint'
    obtain ⟨hentry, rfl⟩ := hint'
    exact ⟨name, value, s2, rfl, hentry.symm, hname, hvalue⟩

/-- A block that begins with encoded representations is read as these first. -/
theorem readsBlock_append (hcodes : UniqueCodes) {reps reps' : List Rep} {rest : Octets}
    (hreps : ∀ r ∈ reps, r.Named) (h : ReadsBlock (encodeBlock reps ++ rest) reps') :
    ∃ behind, reps' = reps ++ behind ∧ ReadsBlock rest behind := by
  induction reps generalizing reps' with
  | nil => exact ⟨reps', rfl, h⟩
  | cons r reps ih =>
    obtain ⟨hr, hrest⟩ := List.forall_mem_cons.mp hreps
    have hfirst := readsRep_encode r (encodeBlock reps ++ rest) hr
    rw [encodeBlock, List.flatMap_cons, List.append_assoc] at h
    cases reps' with
    | nil =>
      obtain ⟨b, hb, -⟩ := hfirst.flagged
      rw [show r.encode ++ (encodeBlock reps ++ rest) = [] from h] at hb
      cases hb
    | cons r' reps' =>
      obtain ⟨s, hr', hblock⟩ := h
      obtain ⟨rfl, rfl⟩ := readsRep_unique hcodes hfirst hr'
      obtain ⟨behind, rfl, hbehind⟩ := ih hrest hblock
      exact ⟨behind, rfl, hbehind⟩

/-! ### Header lists -/

/-- A representation that means a field whatever the table is. -/
def Rep.Means (limit : Nat) (r : Rep) (f : Field) : Prop :=
  ∀ t : Table, ∃ t', t.decode limit r = some (some f, t')

theorem decodeBlock_means {limit : Nat} {reps : List Rep} {fields : List Field}
    (h : List.Forall₂ (Rep.Means limit) reps fields) (t : Table) :
    ∃ t', t.decodeBlock limit reps = some (fields, t') := by
  induction h generalizing t with
  | nil => exact ⟨t, rfl⟩
  | cons hr _ ih =>
    obtain ⟨u, hu⟩ := hr t
    obtain ⟨t', ht'⟩ := ih u
    refine ⟨t', ?_⟩
    rw [Table.decodeBlock, hu, Option.bind_some]
    dsimp only
    rw [ht']
    rfl

theorem decodeBlock_append {limit : Nat} {t t' : Table} {reps behind : List Rep}
    {fields fields' : List Field} (h : List.Forall₂ (Rep.Means limit) reps fields)
    (hblock : t.decodeBlock limit (reps ++ behind) = some (fields', t')) :
    ∃ (u : Table) (rest : List Field), u.decodeBlock limit behind = some (rest, t') ∧ fields' = fields ++ rest := by
  induction h generalizing t fields' with
  | nil => exact ⟨t, fields', hblock, rfl⟩
  | cons hr _ ih =>
    obtain ⟨f, u, rest, hdec, hrest, rfl⟩ := t.decodeBlock_cons limit t' _ _ _ hblock
    obtain ⟨v, hv⟩ := hr t
    rw [hv, Option.some.injEq, Prod.mk.injEq] at hdec
    obtain ⟨rfl, rfl⟩ := hdec
    obtain ⟨w, rest', hbehind, rfl⟩ := ih hrest
    exact ⟨w, rest', hbehind, rfl⟩

end Hpack
