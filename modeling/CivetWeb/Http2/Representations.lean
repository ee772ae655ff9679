import CivetWeb.Http2.Isolation
import CivetWeb.Http2.Strings

namespace CivetWeb

open Hpack

/-! What the loop over a header block makes of the representations that an encoder wrote. -/

/-- The name of an entry of the static or the dynamic table. -/
def entryName (dynTable : List MgHeader) (idx : Nat) : Option (List Byte) :=
  if idx ≤ 61 then (hpackPredefined[idx]?).bind Prod.fst
  else if idx - 61 ≤ dynTable.length then (dynTable[idx - 62]?).map MgHeader.name
  else none

def repName (dynTable : List MgHeader) : Name → Option (List Byte)
  | .index i => entryName dynTable i
  | .new text => some (cstr text.text)

/-- The field of a representation, and the dynamic table behind it. -/
def repHeader (dynTable : List MgHeader) : Rep → Option (Option MgHeader × List MgHeader)
  | .indexed i =>
    (entryName dynTable i).bind fun key => (knownValue dynTable i).map fun val =>
      (some ⟨key, val⟩, dynTable)
  | .literal indexing name value =>
    (repName dynTable name).bind fun key =>
    let h : MgHeader := ⟨key, cstr value.text⟩
    if indexing = .incremental then
      if HTTP2_DYN_TABLE_SIZE ≤ dynTable.length then none else some (some h, dynTable ++ [h])
    else some (some h, dynTable)
  | .resize maxSize => some (none, purgeDynamicHeaderTable dynTable (maxSize % 2 ^ 32))

def repFields : List MgHeader → List Rep → Option (List MgHeader × List MgHeader)
  | dynTable, [] => some ([], dynTable)
  | dynTable, r :: reps => (repHeader dynTable r).bind fun (h, dynTable) =>
      (repFields dynTable reps).map fun (fields, dynTable) => (h.toList ++ fields, dynTable)

/-- The index of a representation, and its strings, in the bounds of the decoder. -/
structure Readable (r : Rep) : Prop where
  index : ∀ i, (r = .indexed i ∨ ∃ indexing value, r = .literal indexing (.index i) value) →
    i ≠ 0 ∧ i < 2 ^ 30
  size : ∀ s, r = .resize s → s < 2 ^ 30
  strings : ∀ s ∈ r.literals, s.body.length ≤ 1024

theorem headerKey_entry (dynTable : List MgHeader) (buf : List Byte) (bytesRead idx i : Nat)
    (h : idx ≠ 0) :
    headerKey dynTable buf bytesRead idx i = (entryName dynTable idx).map (·, i) := by
  rw [headerKey, if_neg h, entryName]
  split_ifs with hstatic hdyn
  · rfl
  · rw [Option.map_map]
    rfl
  · rfl

theorem getElem_drop (buf tail : List Byte) (i : Nat) (b : Byte) (h : buf.drop i = b :: tail) :
    buf[i]? = some b := by
  have h0 : (buf.drop i)[0]? = some b := by
    rw [h]
    rfl
  rwa [List.getElem?_drop, Nat.add_zero] at h0

/-- The bits above an index tell the representations apart. -/
theorem flags_indexed : ∀ v : Fin 128, UInt8.ofNat (0x80 + v.val) &&& 0x80 = 0x80 := by decide

theorem flags_literal (indexing : Indexing) (v : Nat) (hv : v < 2 ^ indexing.flags.2) :
    ¬ UInt8.ofNat (indexing.flags.1 + v) &&& 0x80 = 0x80 ∧
      (UInt8.ofNat (indexing.flags.1 + v) &&& 0xC0 = 0x40 ↔ indexing = .incremental) ∧
      (UInt8.ofNat (indexing.flags.1 + v) &&& 0xF0 = 0x00 ↔ indexing = .without) ∧
      (UInt8.ofNat (indexing.flags.1 + v) &&& 0xF0 = 0x10 ↔ indexing = .never) := by
  cases indexing with
  | incremental =>
    have hall : ∀ v : Fin 64, ¬ UInt8.ofNat (0x40 + v.val) &&& 0x80 = 0x80 ∧
        UInt8.ofNat (0x40 + v.val) &&& 0xC0 = 0x40 ∧
        ¬ UInt8.ofNat (0x40 + v.val) &&& 0xF0 = 0x00 ∧
        ¬ UInt8.ofNat (0x40 + v.val) &&& 0xF0 = 0x10 := by decide
    simpa [Indexing.flags] using hall ⟨v, hv⟩
  | without =>
    have hall : ∀ v : Fin 16, ¬ UInt8.ofNat (0 + v.val) &&& 0x80 = 0x80 ∧
        ¬ UInt8.ofNat (0 + v.val) &&& 0xC0 = 0x40 ∧
        UInt8.ofNat (0 + v.val) &&& 0xF0 = 0x00 ∧
        ¬ UInt8.ofNat (0 + v.val) &&& 0xF0 = 0x10 := by decide
    simpa [Indexing.flags] using hall ⟨v, hv⟩
  | never =>
    have hall : ∀ v : Fin 16, ¬ UInt8.ofNat (0x10 + v.val) &&& 0x80 = 0x80 ∧
        ¬ UInt8.ofNat (0x10 + v.val) &&& 0xC0 = 0x40 ∧
        ¬ UInt8.ofNat (0x10 + v.val) &&& 0xF0 = 0x00 ∧
        UInt8.ofNat (0x10 + v.val) &&& 0xF0 = 0x10 := by decide
    simpa [Indexing.flags] using hall ⟨v, hv⟩

theorem flags_resize : ∀ v : Fin 32, ¬ UInt8.ofNat (0x20 + v.val) &&& 0x80 = 0x80 ∧
    ¬ UInt8.ofNat (0x20 + v.val) &&& 0xC0 = 0x40 ∧ ¬ UInt8.ofNat (0x20 + v.val) &&& 0xF0 = 0x00 ∧
    ¬ UInt8.ofNat (0x20 + v.val) &&& 0xF0 = 0x10 ∧ UInt8.ofNat (0x20 + v.val) &&& 0xE0 = 0x20 := by
  decide

theorem Rep.encode_ne_nil (r : Rep) : r.encode ≠ [] := by
  cases r with
  | indexed i =>
    obtain ⟨v, -, tail, h⟩ := encodeInt_first 0x80 7 i
    rw [Rep.encode, h]
    exact List.cons_ne_nil _ _
  | literal indexing name value =>
    obtain ⟨v, -, tail, h⟩ := encodeInt_first indexing.flags.1 indexing.flags.2 name.entry
    rw [Rep.encode, h]
    exact List.cons_ne_nil _ _
  | resize s =>
    obtain ⟨v, -, tail, h⟩ := encodeInt_first 0x20 5 s
    rw [Rep.encode, h]
    exact List.cons_ne_nil _ _

theorem nextHeader_indexed (dynTable : List MgHeader) (buf post : List Byte) (size i idx : Nat)
    (hdrop : buf.drop i = (Rep.indexed idx).encode ++ post) (hidx : idx ≠ 0 ∧ idx < 2 ^ 30) :
    nextHeader dynTable buf size i = (repHeader dynTable (.indexed idx)).map
      fun (h, dynTable) => (h, dynTable, i + (Rep.indexed idx).encode.length) := by
  obtain ⟨v, hv, tail, hfirst⟩ := encodeInt_first 0x80 7 idx
  have hb := getElem_drop buf (tail ++ post) i _ (by rw [hdrop, Rep.encode, hfirst, List.cons_append])
  have hnum := hpackGetnum_encodeInt buf post i 0x80 7 idx hdrop rfl (by decide) hidx.2
  have hmask : (0x7F : Byte) = UInt8.ofNat (2 ^ 7 - 1) := rfl
  rw [nextHeader, hb, Option.bind_some]
  dsimp only
  rw [if_pos (flags_indexed ⟨v, hv⟩), headerField, hmask, hnum, Option.bind_some]
  dsimp only
  rw [headerKey_entry _ _ _ _ _ hidx.1, repHeader, Rep.encode]
  cases entryName dynTable idx with
  | none => rfl
  | some key => cases knownValue dynTable idx <;> rfl

theorem nextHeader_resize (dynTable : List MgHeader) (buf post : List Byte) (size i s : Nat)
    (hdrop : buf.drop i = (Rep.resize s).encode ++ post) (hs : s < 2 ^ 30) :
    nextHeader dynTable buf size i = (repHeader dynTable (.resize s)).map
      fun (h, dynTable) => (h, dynTable, i + (Rep.resize s).encode.length) := by
  obtain ⟨v, hv, tail, hfirst⟩ := encodeInt_first 0x20 5 s
  have hb := getElem_drop buf (tail ++ post) i _ (by rw [hdrop, Rep.encode, hfirst, List.cons_append])
  have hnum := hpackGetnum_encodeInt buf post i 0x20 5 s hdrop rfl (by decide) hs
  have hmask : (0x1F : Byte) = UInt8.ofNat (2 ^ 5 - 1) := rfl
  obtain ⟨h1, h2, h3, h4, h5⟩ := flags_resize ⟨v, hv⟩
  rw [nextHeader, hb, Option.bind_some]
  dsimp only at h1 h2 h3 h4 h5 ⊢
  rw [if_neg h1, if_neg h2, if_neg h3, if_neg h4, if_pos h5, hmask, hnum]
  rfl

/-- The name of a literal field, by its index or in full behind it. -/
theorem headerKey_name (dynTable : List MgHeader) (buf post : List Byte) (size i : Nat) (name : Name)
    (hdrop : buf.drop i = name.encode ++ post) (hsize : i + name.encode.length ≤ size)
    (hindex : ∀ j, name = .index j → j ≠ 0)
    (hstring : ∀ s, name = .new s → s.body.length ≤ 1024) :
    headerKey dynTable buf size name.entry i =
      (repName dynTable name).map (·, i + name.encode.length) := by
  cases name with
  | index j => exact headerKey_entry dynTable buf size j i (hindex j rfl)
  | new s =>
    rw [headerKey, Name.entry, if_pos rfl, hpackDecode_encode buf post i size s hdrop (hstring s rfl) hsize]
    rfl

theorem headerField_literal (dynTable : List MgHeader) (buf post : List Byte) (size i : Nat)
    (indexing : Indexing) (name : Name) (value : Literal) (mask : Byte)
    (hmask : mask = UInt8.ofNat (2 ^ indexing.flags.2 - 1))
    (hdrop : buf.drop i = (Rep.literal indexing name value).encode ++ post)
    (hsize : i + (Rep.literal indexing name value).encode.length ≤ size)
    (hr : Readable (.literal indexing name value)) :
    (headerField dynTable buf size i mask false (indexing = .incremental)).map
        (fun (h, dynTable, i) => (some h, dynTable, i)) =
      (repHeader dynTable (.literal indexing name value)).map
        fun (h, dynTable) => (h, dynTable, i + (Rep.literal indexing name value).encode.length) := by
  have hflags : indexing.flags.1 % 2 ^ indexing.flags.2 = 0 ∧
      indexing.flags.1 + 2 ^ indexing.flags.2 ≤ 256 := by
    cases indexing <;> decide
  have hentry : name.entry < 2 ^ 30 := by
    cases name with
    | index j => exact (hr.index j (Or.inr ⟨indexing, value, rfl⟩)).2
    | new s => exact Nat.two_pow_pos 30
  rw [Rep.encode, List.append_assoc, List.append_assoc] at hdrop
  rw [Rep.encode, List.length_append, List.length_append] at hsize ⊢
  have hnum := hpackGetnum_encodeInt buf _ i _ _ name.entry hdrop hflags.1 hflags.2 hentry
  have hdrop1 : buf.drop (i + (encodeInt indexing.flags.1 indexing.flags.2 name.entry).length) =
      name.encode ++ (value.encode ++ post) := by
    rw [← List.drop_drop, hdrop, List.drop_left]
  have hdrop2 : buf.drop (i + (encodeInt indexing.flags.1 indexing.flags.2 name.entry).length +
      name.encode.length) = value.encode ++ post := by
    rw [← List.drop_drop, hdrop1, List.drop_left]
  have hkey := headerKey_name dynTable buf (value.encode ++ post) size _ name hdrop1 (by omega)
    (fun j hj => (hr.index j (Or.inr ⟨indexing, value, by rw [hj]⟩)).1)
    (fun s hs => hr.strings s (by rw [hs]; exact List.mem_cons_self))
  have hvalue := hpackDecode_encode buf post _ size value hdrop2
    (hr.strings value (by cases name <;> simp [Rep.literals])) (by omega)
  rw [headerField, hmask, hnum, Option.bind_some]
  dsimp only
  rw [hkey, repHeader]
  cases repName dynTable name with
  | none => rfl
  | some key =>
    rw [Option.map_some, Option.bind_some, Option.bind_some]
    simp only [Bool.false_eq_true, if_false, hvalue, Option.bind_some, decide_eq_true_eq]
    split_ifs <;> simp [Nat.add_assoc]

theorem nextHeader_literal (dynTable : List MgHeader) (buf post : List Byte) (size i : Nat)
    (indexing : Indexing) (name : Name) (value : Literal)
    (hdrop : buf.drop i = (Rep.literal indexing name value).encode ++ post)
    (hsize : i + (Rep.literal indexing name value).encode.length ≤ size)
    (hr : Readable (.literal indexing name value)) :
    nextHeader dynTable buf size i = (repHeader dynTable (.literal indexing name value)).map
      fun (h, dynTable) => (h, dynTable, i + (Rep.literal indexing name value).encode.length) := by
  obtain ⟨v, hv, tail, hfirst⟩ := encodeInt_first indexing.flags.1 indexing.flags.2 name.entry
  have hb := getElem_drop buf (tail ++ name.encode ++ value.encode ++ post) i _
    (by rw [hdrop, Rep.encode, hfirst]; rfl)
  have hfield := headerField_literal dynTable buf post size i indexing name value _ rfl hdrop hsize hr
  obtain ⟨h1, h2, h3, h4⟩ := flags_literal indexing v hv
  rw [nextHeader, hb, Option.bind_some]
  dsimp only
  rw [if_neg h1, ← hfield]
  cases indexing with
  | incremental => rw [if_pos (h2.mpr rfl)]; rfl
  | without =>
    rw [if_neg (fun h => by cases h2.mp h), if_pos (h3.mpr rfl)]
    rfl
  | never =>
    rw [if_neg (fun h => by cases h2.mp h), if_neg (fun h => by cases h3.mp h), if_pos (h4.mpr rfl)]
    rfl

/-- One turn of the loop decodes one representation. -/
theorem nextHeader_rep (dynTable : List MgHeader) (buf post : List Byte) (size i : Nat) (r : Rep)
    (hdrop : buf.drop i = r.encode ++ post) (hsize : i + r.encode.length ≤ size) (hr : Readable r) :
    nextHeader dynTable buf size i = (repHeader dynTable r).map
      fun (h, dynTable) => (h, dynTable, i + r.encode.length) := by
  cases r with
  | indexed idx =>
    exact nextHeader_indexed dynTable buf post size i idx hdrop (hr.index idx (Or.inl rfl))
  | literal indexing name value =>
    exact nextHeader_literal dynTable buf post size i indexing name value hdrop hsize hr
  | resize s => exact nextHeader_resize dynTable buf post size i s hdrop (hr.size s rfl)

/-- The loop decodes the representations of a block one by one. -/
theorem blockFields_encode (buf post : List Byte) (size padding turns : Nat)
    (dynTable : List MgHeader) (i : Nat) (reps : List Rep)
    (hdrop : buf.drop i = encodeBlock reps ++ post)
    (hsize : i + (encodeBlock reps).length + padding = size) (hturns : size < i + turns)
    (hr : ∀ r ∈ reps, Readable r) :
    blockFields buf size padding turns dynTable i = repFields dynTable reps := by
  induction reps generalizing turns dynTable i with
  | nil =>
    obtain ⟨turns, rfl⟩ : ∃ t, turns = t + 1 := ⟨turns - 1, by omega⟩
    have hlen : (encodeBlock []).length = 0 := rfl
    rw [blockFields, if_neg (by omega), repFields]
  | cons r reps ih =>
    have hblock : encodeBlock (r :: reps) = r.encode ++ encodeBlock reps := rfl
    have hpos : 0 < r.encode.length := List.length_pos_of_ne_nil (Rep.encode_ne_nil r)
    rw [hblock, List.append_assoc] at hdrop
    rw [hblock, List.length_append] at hsize
    obtain ⟨turns, rfl⟩ : ∃ t, turns = t + 1 := ⟨turns - 1, by omega⟩
    have hrest : buf.drop (i + r.encode.length) = encodeBlock reps ++ post := by
      rw [← List.drop_drop, hdrop, List.drop_left]
    rw [blockFields, if_pos (by omega), nextHeader_rep dynTable buf _ size i r hdrop (by omega)
      (hr r List.mem_cons_self), repFields]
    cases repHeader dynTable r with
    | none => rfl
    | some res =>
      obtain ⟨h, dynTable'⟩ := res
      rw [Option.map_some, Option.bind_some, Option.bind_some]
      dsimp only
      rw [ih turns dynTable' (i + r.encode.length) hrest (by omega) (by omega)
        (fun r hmem => hr r (List.mem_cons_of_mem _ hmem))]

end CivetWeb
