import CivetWeb.Http2.Representations

namespace CivetWeb

open Hpack

/-- The advertised size of the dynamic table. -/
def HTTP2_HEADER_TABLE_SIZE : Nat := 4096

def fieldHeader (f : Field) : MgHeader := ⟨f.name, f.value⟩

/-- The entries that are kept behind a representation, the oldest one first: all that were added, but for
a size update, which keeps as many of the oldest ones as it has octets. -/
def keptBehind (kept : List Field) (t : Table) : Rep → List Field
  | .literal .incremental name value =>
    kept ++ ((t.name? name).map fun n => (⟨n, value.text⟩ : Field)).toList
  | .resize maxSize => kept.take maxSize
  | _ => kept

/-- A name by an index of the static table, but for the two that are swapped there; or by one whose entry
has the same name counted from the oldest entry as from the newest; or in full, without a NUL. -/
def NameAgrees (kept : List Field) (t : Table) : Name → Prop
  | .index i =>
    if i ≤ 61 then i ≠ 25 ∧ i ≠ 26 else (kept[i - 62]?).map Field.name = t.name? (.index i)
  | .new text => NUL ∉ text.text

/-- A representation that means the same counted from the oldest entry as from the newest. -/
def RepAgrees (kept : List Field) (t : Table) : Rep → Prop
  | .indexed i => (2 ≤ i ∧ i ≤ 14) ∨ (62 ≤ i ∧ kept[i - 62]? = t.field? i)
  | .literal indexing name value =>
    NameAgrees kept t name ∧ NUL ∉ value.text ∧
      (indexing = .incremental → kept.length < HTTP2_DYN_TABLE_SIZE)
  | .resize _ => True

/-- Every representation does, at the tables that those before it leave. -/
def Agrees : List Field → Table → List Rep → Prop
  | _, _, [] => True
  | kept, t, r :: reps => RepAgrees kept t r ∧
      ∀ f t', t.decode HTTP2_HEADER_TABLE_SIZE r = some (f, t') → Agrees (keptBehind kept t r) t' reps

theorem cstr_eq_iff (s : List Byte) : cstr s = s ↔ NUL ∉ s :=
  ⟨fun h => h ▸ cstr_noNul s, cstr_of_no_nul s⟩

theorem fieldHeader_inj (f g : Field) (h : fieldHeader f = fieldHeader g) : f = g := by
  cases f
  cases g
  simpa [fieldHeader] using h

theorem predefined_name : ∀ i : Fin 62, i.val ≠ 0 →
    ((hpackPredefined[i.val]?).bind Prod.fst = (staticTable[i.val - 1]?).map Field.name ↔
      i.val ≠ 25 ∧ i.val ≠ 26) := by
  -- One entry at a time: both tables are too much for one evaluation.
  simp only [Fin.forall_fin_succ]
  and_intros
  all_goals decide +kernel

theorem predefined_value : ∀ i : Fin 62, i.val ≠ 0 →
    (hpackPredefined[i.val]?).bind Prod.snd =
      if 2 ≤ i.val ∧ i.val ≤ 14 then (staticTable[i.val - 1]?).map Field.value else none := by
  simp only [Fin.forall_fin_succ]
  and_intros
  all_goals decide +kernel

/-- An entry of the dynamic table, by the entries that are kept. -/
theorem entryName_kept (kept : List Field) (i : Nat) (hi : 61 < i) :
    entryName (kept.map fieldHeader) i = (kept[i - 62]?).map Field.name := by
  rw [entryName, if_neg (by omega), List.length_map]
  split_ifs with hlen
  · rw [List.getElem?_map, Option.map_map]
    rfl
  · rw [List.getElem?_eq_none (by omega)]
    rfl

theorem knownValue_kept (kept : List Field) (i : Nat) (hi : 61 < i) :
    knownValue (kept.map fieldHeader) i = (kept[i - 62]?).map Field.value := by
  rw [knownValue, if_neg (by omega), List.length_map]
  split_ifs with hlen
  · rw [List.getElem?_map, Option.map_map]
    rfl
  · rw [List.getElem?_eq_none (by omega)]
    rfl

theorem field?_static (t : Table) (i : Nat) (h0 : i ≠ 0) (h61 : i ≤ 61) :
    t.field? i = staticTable[i - 1]? := by
  rw [Table.field?, if_neg h0, if_pos h61]

theorem repName_agrees (kept : List Field) (t : Table) (name : Name) (n : List Byte)
    (h : t.name? name = some n) :
    repName (kept.map fieldHeader) name = some n ↔ NameAgrees kept t name := by
  cases name with
  | new text =>
    obtain rfl := Option.some.inj h
    rw [repName, NameAgrees, Option.some.injEq, cstr_eq_iff]
  | index i =>
    obtain ⟨f, hf, -⟩ := Option.map_eq_some_iff.mp h
    have h0 := (t.field?_lt i f hf).1
    rw [repName, NameAgrees]
    by_cases h61 : i ≤ 61
    · have hname := predefined_name ⟨i, by omega⟩ h0
      rw [Table.name?, field?_static t i h0 h61] at h
      rw [if_pos h61, entryName, if_pos h61, ← h]
      exact hname
    · rw [if_neg h61, entryName_kept kept i (by omega), h]

theorem repHeader_indexed (kept : List Field) (t : Table) (i : Nat) (f : Field)
    (hf : t.field? i = some f) (h : RepAgrees kept t (.indexed i)) :
    repHeader (kept.map fieldHeader) (.indexed i) = some (some (fieldHeader f), kept.map fieldHeader) := by
  have h0 := (t.field?_lt i f hf).1
  rw [repHeader]
  rcases h with ⟨h2, h14⟩ | ⟨h62, hsame⟩
  · have hname := (repName_agrees kept t (.index i) f.name (by rw [Table.name?, hf, Option.map_some])).mpr
      (by rw [NameAgrees, if_pos (by omega)]; omega)
    have hvalue := predefined_value ⟨i, by omega⟩ h0
    rw [if_pos ⟨h2, h14⟩, ← field?_static t i h0 (by omega), hf] at hvalue
    rw [repName] at hname
    rw [hname, Option.bind_some, knownValue, if_pos (by omega), hvalue]
    rfl
  · rw [entryName_kept kept i (by omega), knownValue_kept kept i (by omega), hsame, hf]
    rfl

theorem repHeader_indexed_agrees (kept : List Field) (t : Table) (i : Nat) (f : Field)
    (h : Option MgHeader) (dynTable : List MgHeader) (hf : t.field? i = some f)
    (hrep : repHeader (kept.map fieldHeader) (.indexed i) = some (h, dynTable)) :
    h.isSome ∧ (h = some (fieldHeader f) → RepAgrees kept t (.indexed i)) := by
  have h0 := (t.field?_lt i f hf).1
  obtain ⟨key, hkey, hrep⟩ := Option.bind_eq_some_iff.mp hrep
  obtain ⟨val, hval, hrep⟩ := Option.map_eq_some_iff.mp hrep
  obtain ⟨rfl, -⟩ := Prod.mk.inj hrep
  refine ⟨rfl, ?_⟩
  intro heq
  obtain ⟨rfl, rfl⟩ := MgHeader.mk.inj (Option.some.inj heq)
  by_cases h61 : i ≤ 61
  · have hvalue := predefined_value ⟨i, by omega⟩ h0
    rw [knownValue, if_pos h61, hvalue] at hval
    by_cases hrange : 2 ≤ i ∧ i ≤ 14
    · exact Or.inl hrange
    · rw [if_neg hrange] at hval
      cases hval
  · rw [entryName_kept kept i (by omega)] at hkey
    rw [knownValue_kept kept i (by omega)] at hval
    obtain ⟨g, hg, hname⟩ := Option.map_eq_some_iff.mp hkey
    rw [hg, Option.map_some, Option.some.injEq] at hval
    have hsame : g = f := fieldHeader_inj g f (by rw [fieldHeader, fieldHeader, hname, hval])
    exact Or.inr ⟨by omega, by rw [hg, hf, hsame]⟩

/-- A representation that agrees is decoded as the RFC has it. -/
theorem repHeader_agrees (kept : List Field) (t t' : Table) (r : Rep) (f : Option Field)
    (hdec : t.decode HTTP2_HEADER_TABLE_SIZE r = some (f, t')) (h : RepAgrees kept t r) :
    repHeader (kept.map fieldHeader) r =
      some (f.map fieldHeader, (keptBehind kept t r).map fieldHeader) := by
  cases r with
  | indexed i =>
    obtain ⟨g, hg, hdec⟩ := Option.map_eq_some_iff.mp hdec
    obtain ⟨rfl, -⟩ := Prod.mk.inj hdec
    exact repHeader_indexed kept t i g hg h
  | literal indexing name value =>
    obtain ⟨n, hn, hdec⟩ := Option.map_eq_some_iff.mp hdec
    obtain ⟨rfl, -⟩ := Prod.mk.inj hdec
    obtain ⟨hname, hvalue, hroom⟩ := h
    rw [repHeader, (repName_agrees kept t name n hn).mpr hname, Option.bind_some,
      cstr_of_no_nul value.text hvalue]
    dsimp only
    cases indexing with
    | incremental =>
      have hlen := hroom rfl
      rw [if_pos rfl, List.length_map, if_neg (by omega), keptBehind, hn]
      simp [fieldHeader]
    | without => rfl
    | never => rfl
  | resize s =>
    rw [Table.decode] at hdec
    split_ifs at hdec with hlimit
    obtain ⟨rfl, -⟩ := Prod.mk.inj (Option.some.inj hdec)
    rw [HTTP2_HEADER_TABLE_SIZE] at hlimit
    rw [repHeader, purgeDynamicHeaderTable, Nat.mod_eq_of_lt (by omega), keptBehind, List.map_take]
    rfl

/-- One that does not is refused, or decoded to another field. -/
theorem agrees_of_repHeader (kept : List Field) (t t' : Table) (r : Rep) (f : Option Field)
    (h : Option MgHeader) (dynTable : List MgHeader)
    (hdec : t.decode HTTP2_HEADER_TABLE_SIZE r = some (f, t'))
    (hrep : repHeader (kept.map fieldHeader) r = some (h, dynTable)) :
    h.isSome = f.isSome ∧ (h = f.map fieldHeader → RepAgrees kept t r) := by
  cases r with
  | indexed i =>
    obtain ⟨g, hg, hdec⟩ := Option.map_eq_some_iff.mp hdec
    obtain ⟨rfl, -⟩ := Prod.mk.inj hdec
    exact repHeader_indexed_agrees kept t i g h dynTable hg hrep
  | literal indexing name value =>
    obtain ⟨n, hn, hdec⟩ := Option.map_eq_some_iff.mp hdec
    obtain ⟨rfl, -⟩ := Prod.mk.inj hdec
    obtain ⟨key, hkey, hrep⟩ := Option.bind_eq_some_iff.mp hrep
    dsimp only at hrep
    have hfield : h = some ⟨key, cstr value.text⟩ ∧
        (indexing = .incremental → kept.length < HTTP2_DYN_TABLE_SIZE) := by
      split_ifs at hrep with hinc hfull
      · rw [List.length_map] at hfull
        exact ⟨(Prod.mk.inj (Option.some.inj hrep)).1.symm, fun _ => by omega⟩
      · exact ⟨(Prod.mk.inj (Option.some.inj hrep)).1.symm, fun h => absurd h hinc⟩
    obtain ⟨rfl, hroom⟩ := hfield
    refine ⟨rfl, ?_⟩
    intro heq
    obtain ⟨rfl, hvalue⟩ := MgHeader.mk.inj (Option.some.inj heq)
    exact ⟨(repName_agrees kept t name key hn).mp hkey, (cstr_eq_iff value.text).mp hvalue, hroom⟩
  | resize s =>
    rw [Table.decode] at hdec
    split_ifs at hdec with hlimit
    obtain ⟨rfl, -⟩ := Prod.mk.inj (Option.some.inj hdec)
    obtain ⟨rfl, -⟩ := Prod.mk.inj (Option.some.inj hrep)
    exact ⟨rfl, fun _ => trivial⟩

theorem Agrees.left (kept : List Field) (t : Table) (reps rest : List Rep)
    (h : Agrees kept t (reps ++ rest)) : Agrees kept t reps := by
  induction reps generalizing kept t with
  | nil => trivial
  | cons r reps ih => exact ⟨h.1, fun f t' hdec => ih _ t' (h.2 f t' hdec)⟩

theorem repFields_agrees (kept : List Field) (t t'' : Table) (reps : List Rep) (fields : List Field)
    (hdec : t.decodeBlock HTTP2_HEADER_TABLE_SIZE reps = some (fields, t'')) (h : Agrees kept t reps) :
    ∃ kept', repFields (kept.map fieldHeader) reps =
        some (fields.map fieldHeader, kept'.map fieldHeader) ∧
      ∀ rest, Agrees kept t (reps ++ rest) ↔ Agrees kept' t'' rest := by
  induction reps generalizing kept t fields with
  | nil =>
    obtain ⟨rfl, rfl⟩ := Prod.mk.inj (Option.some.inj hdec)
    exact ⟨kept, rfl, fun _ => Iff.rfl⟩
  | cons r reps ih =>
    obtain ⟨f, t', tail, hr, hreps, rfl⟩ := Table.decodeBlock_cons _ t t'' r reps fields hdec
    obtain ⟨kept', hfields, hrest⟩ := ih (keptBehind kept t r) t' tail hreps (h.2 f t' hr)
    refine ⟨kept', ?_, ?_⟩
    · rw [repFields, repHeader_agrees kept t t' r f hr h.1, Option.bind_some]
      dsimp only
      rw [hfields, Option.map_some]
      cases f <;> rfl
    · intro rest
      rw [← hrest rest]
      constructor
      · exact fun hall => hall.2 f t' hr
      · refine fun hall => ⟨h.1, ?_⟩
        intro g u hu
        rw [hr] at hu
        obtain ⟨-, rfl⟩ := Prod.mk.inj (Option.some.inj hu)
        exact hall

/-- A block whose fields begin as the RFC has them agrees. -/
theorem agrees_of_repFields (kept : List Field) (t t'' : Table) (reps : List Rep)
    (fields : List Field) (decoded dynTable : List MgHeader)
    (hdec : t.decodeBlock HTTP2_HEADER_TABLE_SIZE reps = some (fields, t''))
    (hrep : repFields (kept.map fieldHeader) reps = some (decoded, dynTable))
    (hbegins : fields.map fieldHeader <+: decoded) : Agrees kept t reps := by
  induction reps generalizing kept t fields decoded with
  | nil => trivial
  | cons r reps ih =>
    obtain ⟨f, t', tail, hr, hreps, rfl⟩ := Table.decodeBlock_cons _ t t'' r reps fields hdec
    obtain ⟨⟨h, d⟩, hh, hrep⟩ := Option.bind_eq_some_iff.mp hrep
    obtain ⟨⟨rest, d'⟩, hrest, hrep⟩ := Option.map_eq_some_iff.mp hrep
    obtain ⟨rfl, rfl⟩ := Prod.mk.inj hrep
    obtain ⟨hsome, hagree⟩ := agrees_of_repHeader kept t t' r f h d hr hh
    -- the field of `r` stands at the head of both lists, if there is one
    have hhead : h = f.map fieldHeader ∧ tail.map fieldHeader <+: rest := by
      cases f with
      | none =>
        cases h with
        | none => exact ⟨rfl, hbegins⟩
        | some _ => cases hsome
      | some g =>
        cases h with
        | none => cases hsome
        | some m =>
          obtain ⟨rfl, htail⟩ := List.cons_prefix_cons.mp hbegins
          exact ⟨rfl, htail⟩
    have hr' := hagree hhead.1
    refine ⟨hr', ?_⟩
    intro g u hu
    rw [hr] at hu
    obtain ⟨-, rfl⟩ := Prod.mk.inj (Option.some.inj hu)
    rw [repHeader_agrees kept t t' r f hr hr'] at hh
    obtain ⟨-, rfl⟩ := Prod.mk.inj (Option.some.inj hh)
    exact ih (keptBehind kept t r) t' tail rest hreps hrest hhead.2

theorem decode_readable (t t' : Table) (r : Rep) (f : Option Field)
    (hmax : t.maxSize ≤ HTTP2_HEADER_TABLE_SIZE)
    (hdec : t.decode HTTP2_HEADER_TABLE_SIZE r = some (f, t'))
    (hstrings : ∀ s ∈ r.literals, s.body.length ≤ 1024) : Readable r := by
  rw [HTTP2_HEADER_TABLE_SIZE] at hmax hdec
  refine ⟨?_, ?_, hstrings⟩
  · rintro i (rfl | ⟨indexing, value, rfl⟩)
    · obtain ⟨g, hg, -⟩ := Option.map_eq_some_iff.mp hdec
      obtain ⟨h0, hlt⟩ := t.field?_lt i g hg
      exact ⟨h0, by omega⟩
    · obtain ⟨n, hn, -⟩ := Option.map_eq_some_iff.mp hdec
      obtain ⟨g, hg, -⟩ := Option.map_eq_some_iff.mp hn
      obtain ⟨h0, hlt⟩ := t.field?_lt i g hg
      exact ⟨h0, by omega⟩
  · rintro s rfl
    rw [Table.decode] at hdec
    split_ifs at hdec with hs
    omega

theorem decodeBlock_readable (t t'' : Table) (reps : List Rep) (fields : List Field)
    (hmax : t.maxSize ≤ HTTP2_HEADER_TABLE_SIZE)
    (hdec : t.decodeBlock HTTP2_HEADER_TABLE_SIZE reps = some (fields, t''))
    (hstrings : ∀ r ∈ reps, ∀ s ∈ r.literals, s.body.length ≤ 1024) :
    (∀ r ∈ reps, Readable r) ∧ t''.maxSize ≤ HTTP2_HEADER_TABLE_SIZE := by
  induction reps generalizing t fields with
  | nil =>
    obtain ⟨-, rfl⟩ := Prod.mk.inj (Option.some.inj hdec)
    exact ⟨fun r hr => (by cases hr), hmax⟩
  | cons r reps ih =>
    obtain ⟨f, t', tail, hr, hreps, -⟩ := Table.decodeBlock_cons _ t t'' r reps fields hdec
    obtain ⟨hall, hmax''⟩ := ih t' tail (t.decode_maxSize _ t' r f hmax hr) hreps
      (fun r hmem => hstrings r (List.mem_cons_of_mem _ hmem))
    refine ⟨?_, hmax''⟩
    intro r' hmem
    rcases List.mem_cons.mp hmem with rfl | hmem
    · exact decode_readable t t' r' f hmax hr (hstrings r' List.mem_cons_self)
    · exact hall r' hmem

/-- A `HEADERS` frame with the octets of these representations, behind the padding length and the priority
that its flags announce, and before the padding. -/
structure Carries (frame : Http2Frame) (reps : List Rep) : Prop where
  headers : frame.frameType = 1
  payload : ∃ priority padding : List Byte, padding.length < 256 ∧
    priority.length = (if frame.flags &&& 0x20 ≠ 0 then 5 else 0) ∧
    frame.payload =
      if frame.flags &&& 0x08 ≠ 0 then
        UInt8.ofNat padding.length :: (priority ++ (encodeBlock reps ++ padding))
      else priority ++ encodeBlock reps

theorem frameFields_carries (buf stale : List Byte) (frame : Http2Frame) (reps : List Rep)
    (dynTable : List MgHeader) (hbuf : buf = frame.payload ++ stale) (hframe : Carries frame reps)
    (hr : ∀ r ∈ reps, Readable r) : frameFields buf frame dynTable = repFields dynTable reps := by
  obtain ⟨-, priority, padding, hpad, hpriority, hpayload⟩ := hframe
  rw [frameFields, headersStart, hbuf, hpayload, ← hpriority]
  by_cases hpadded : frame.flags &&& 0x08 ≠ 0
  · have hlength : (UInt8.ofNat padding.length).toNat = padding.length := by
      rw [UInt8.toNat_ofNat', Nat.mod_eq_of_lt (by omega)]
    simp only [if_pos hpadded, List.cons_append, deref_cons, hlength]
    apply blockFields_encode _ (padding ++ stale) _ _ _ _ _ reps _ _ _ hr
    · rw [Nat.add_comm 1, List.drop_succ_cons, List.append_assoc, List.drop_left, List.append_assoc]
    · simp only [List.length_cons, List.length_append]
      omega
    · omega
  · simp only [if_neg hpadded]
    apply blockFields_encode _ stale _ _ _ _ _ reps _ _ _ hr
    · rw [Nat.zero_add, List.append_assoc, List.drop_left]
    · simp only [List.length_append]
      omega
    · omega

/-- The header list that a request is to have. -/
def headerStrings (fields : List Field) : List (Option (List Byte) × Option (List Byte)) :=
  fields.map (fun f => (some f.name, some f.value))

/-- A request has the header list of the RFC exactly where all representations of its block agree; then
the entries that are kept go on with the table of the RFC. -/
theorem headersFrame_hpack (handler : RequestHandler) (conn : Http2Conn) (frame : Http2Frame)
    (stale : List Byte) (kept : List Field) (t t' : Table) (reps : List Rep) (fields : List Field)
    (hbuf : conn.buf = frame.payload ++ stale) (hconn : conn.dynTable = kept.map fieldHeader)
    (hframe : Carries frame reps) (hreps : ∀ r ∈ reps, Readable r)
    (hdec : t.decodeBlock HTTP2_HEADER_TABLE_SIZE reps = some (fields, t'))
    (hmany : fields.length ≤ mgMaxHeaders) :
    (∀ r conn', headersFrame handler conn frame = some (r, conn') →
      r.request.headers r.heap = headerStrings fields → Agrees kept t reps) ∧
    (Agrees kept t reps → ∃ r conn' kept', headersFrame handler conn frame = some (r, conn') ∧
      r.request.headers r.heap = headerStrings fields ∧ conn'.dynTable = kept'.map fieldHeader ∧
      ∀ rest, Agrees kept t (reps ++ rest) ↔ Agrees kept' t' rest) := by
  have hfields := frameFields_carries conn.buf stale frame reps conn.dynTable hbuf hframe hreps
  rw [hconn] at hfields
  constructor
  · intro r conn' hr hheaders
    cases hrep : repFields (kept.map fieldHeader) reps with
    | none =>
      rw [headersFrame_none handler conn frame (by rw [hconn, hfields, hrep])] at hr
      cases hr
    | some res =>
      obtain ⟨decoded, dynTable⟩ := res
      obtain ⟨r', c, hr', hstored, -⟩ := headersFrame_some handler conn frame decoded dynTable
        (by rw [hconn, hfields, hrep])
      rw [hr] at hr'
      obtain rfl := (Prod.mk.inj (Option.some.inj hr')).1
      rw [hstored.headers, headerStrings] at hheaders
      have hsame : decoded.take mgMaxHeaders = fields.map fieldHeader := by
        apply List.map_injective_iff.mpr _ (hheaders.trans _)
        · rintro ⟨n, v⟩ ⟨n', v'⟩ heq
          simpa using heq
        · rw [List.map_map]
          rfl
      exact agrees_of_repFields kept t t' reps fields decoded dynTable hdec hrep
        (hsame ▸ List.take_prefix _ _)
  · intro hagrees
    obtain ⟨kept', hrep, hrest⟩ := repFields_agrees kept t t' reps fields hdec hagrees
    obtain ⟨r, c, hr, hstored, hdyn⟩ := headersFrame_some handler conn frame _ _
      (by rw [hconn, hfields, hrep])
    refine ⟨r, c, kept', hr, ?_, hdyn, hrest⟩
    rw [hstored.headers, List.take_of_length_le (by rw [List.length_map]; exact hmany), List.map_map]
    rfl

theorem handleFrames_hpack_from (handler : RequestHandler) (conn : Http2Conn)
    (frames : List Http2Frame) (blocks : List (List Rep)) (lists : List (List Field))
    (kept : List Field) (t : Table) (hconn : conn.dynTable = kept.map fieldHeader)
    (hmax : t.maxSize ≤ HTTP2_HEADER_TABLE_SIZE) (hframes : List.Forall₂ Carries frames blocks)
    (hrfc : t.decodeBlocks HTTP2_HEADER_TABLE_SIZE blocks = some lists)
    (hstrings : ∀ reps ∈ blocks, ∀ r ∈ reps, ∀ s ∈ r.literals, s.body.length ≤ 1024)
    (hmany : ∀ fields ∈ lists, fields.length ≤ mgMaxHeaders) :
    (handleFrames handler conn frames).map (fun r => r.request.headers r.heap) =
        lists.map headerStrings ↔ Agrees kept t blocks.flatten := by
  induction hframes generalizing conn lists kept t with
  | nil =>
    obtain rfl := Option.some.inj hrfc
    exact ⟨fun _ => trivial, fun _ => rfl⟩
  | cons hframe hframes ih =>
    rename_i frame reps frames blocks
    obtain ⟨fields, t', rest, hreps, hrest, rfl⟩ := Table.decodeBlocks_cons _ t reps blocks lists hrfc
    obtain ⟨hreadable, hmax'⟩ := decodeBlock_readable t t' reps fields hmax hreps
      (hstrings reps List.mem_cons_self)
    obtain ⟨hsame, hagree⟩ := headersFrame_hpack handler
      { conn with buf := frame.payload ++ conn.buf.drop frame.payload.length } frame _ kept t t' reps
      fields rfl hconn hframe hreadable hreps (hmany fields List.mem_cons_self)
    rw [handleFrames, http2Frame]
    dsimp only
    rw [if_pos hframe.headers, List.flatten_cons]
    cases hr : headersFrame handler
        { conn with buf := frame.payload ++ conn.buf.drop frame.payload.length } frame with
    | none =>
      refine ⟨fun h => (by cases h), fun h => ?_⟩
      obtain ⟨r, conn', kept', hr', -⟩ := hagree h.left
      rw [hr] at hr'
      cases hr'
    | some res =>
      obtain ⟨r, conn'⟩ := res
      rw [Option.map_some]
      dsimp only
      rw [Option.toList_some, List.singleton_append, List.map_cons, List.map_cons, List.cons.injEq]
      constructor
      · rintro ⟨hhead, htail⟩
        obtain ⟨r', c, kept', hr', -, hdyn, hiff⟩ := hagree (hsame r conn' hr hhead)
        rw [hr] at hr'
        obtain ⟨rfl, rfl⟩ := Prod.mk.inj (Option.some.inj hr')
        rw [hiff]
        exact (ih conn' rest kept' t' hdyn hmax' hrest
          (fun reps hmem => hstrings reps (List.mem_cons_of_mem _ hmem))
          (fun fields hmem => hmany fields (List.mem_cons_of_mem _ hmem))).mp htail
      · intro h
        obtain ⟨r', c, kept', hr', hhead, hdyn, hiff⟩ := hagree h.left
        rw [hr] at hr'
        obtain ⟨rfl, rfl⟩ := Prod.mk.inj (Option.some.inj hr')
        refine ⟨hhead, ?_⟩
        exact (ih conn' rest kept' t' hdyn hmax' hrest
          (fun reps hmem => hstrings reps (List.mem_cons_of_mem _ hmem))
          (fun fields hmem => hmany fields (List.mem_cons_of_mem _ hmem))).mpr ((hiff _).mp h)

/-- The requests of a connection have the header lists of the RFC exactly where every representation means
the same to the code, which counts its entries from the oldest one and evicts none. -/
theorem handleFrames_hpack (handler : RequestHandler) (conn : Http2Conn) (frames : List Http2Frame)
    (blocks : List (List Rep)) (lists : List (List Field)) (hconn : conn.dynTable = [])
    (hframes : List.Forall₂ Carries frames blocks)
    (hrfc : (Table.empty HTTP2_HEADER_TABLE_SIZE).decodeBlocks HTTP2_HEADER_TABLE_SIZE blocks =
      some lists)
    (hstrings : ∀ reps ∈ blocks, ∀ r ∈ reps, ∀ s ∈ r.literals, s.body.length ≤ 1024)
    (hmany : ∀ fields ∈ lists, fields.length ≤ mgMaxHeaders) :
    (handleFrames handler conn frames).map (fun r => r.request.headers r.heap) =
        lists.map headerStrings ↔
      Agrees [] (Table.empty HTTP2_HEADER_TABLE_SIZE) blocks.flatten :=
  handleFrames_hpack_from handler conn frames blocks lists [] _ hconn (Nat.le_refl _) hframes hrfc
    hstrings hmany

/-- A frame with a header block and nothing else. -/
def blockFrame (reps : List Rep) : Http2Frame := ⟨1, 5, 1, encodeBlock reps⟩

theorem blockFrame_carries (reps : List Rep) : Carries (blockFrame reps) reps := by
  have hpriority : (5 : Byte) &&& 0x20 = 0 := by decide
  have hpadded : (5 : Byte) &&& 0x08 = 0 := by decide
  refine ⟨rfl, [], [], by decide, ?_, ?_⟩
  · simp [blockFrame, hpriority]
  · simp [blockFrame, hpadded]

theorem blockFrames_carry (blocks : List (List Rep)) :
    List.Forall₂ Carries (blocks.map blockFrame) blocks := by
  induction blocks with
  | nil => exact List.Forall₂.nil
  | cons reps blocks ih => exact List.Forall₂.cons (blockFrame_carries reps) ih

/-- A field that is to be added to the table, its name in plain octets and its value Huffman encoded. -/
def addedField (name value : String) : Rep :=
  .literal .incremental (.new ⟨false, octets name⟩) ⟨true, octets value⟩

/-- A field is added to the table, and the next request has it by its index. -/
def oneEntry : List (List Rep) :=
  [[.indexed 2, .indexed 4, addedField "custom-key" "custom-value"],
    [.indexed 2, .indexed 4, .indexed 62]]

theorem handleFrames_hpack_one :
    Agrees [] (Table.empty HTTP2_HEADER_TABLE_SIZE) oneEntry.flatten :=
  (handleFrames_hpack (splitUri false) freshHttp2 (oneEntry.map blockFrame) oneEntry
    [[⟨octets ":method", octets "GET"⟩, ⟨octets ":path", octets "/"⟩,
        ⟨octets "custom-key", octets "custom-value"⟩],
      [⟨octets ":method", octets "GET"⟩, ⟨octets ":path", octets "/"⟩,
        ⟨octets "custom-key", octets "custom-value"⟩]]
    rfl (blockFrames_carry _) (by decide +kernel) (by decide +kernel) (by decide)).mp
    (by decide +kernel)

/-- With two entries in the table, index 62 is the newer one of them; the request has the older one. -/
theorem handleFrames_hpack_two : ∃ blocks lists,
    List.Forall₂ Carries (blocks.map blockFrame) blocks ∧
      (Table.empty HTTP2_HEADER_TABLE_SIZE).decodeBlocks HTTP2_HEADER_TABLE_SIZE blocks = some lists ∧
      (∀ reps ∈ blocks, ∀ r ∈ reps, ∀ s ∈ r.literals, s.body.length ≤ 1024) ∧
      (∀ fields ∈ lists, fields.length ≤ mgMaxHeaders) ∧
      (handleFrames (splitUri false) freshHttp2 (blocks.map blockFrame)).map
        (fun r => r.request.headers r.heap) ≠ lists.map headerStrings :=
  ⟨[[.indexed 2, .indexed 4, addedField "x-user" "alice", addedField "x-user" "bob"],
      [.indexed 2, .indexed 4, .indexed 62]],
    [[⟨octets ":method", octets "GET"⟩, ⟨octets ":path", octets "/"⟩,
        ⟨octets "x-user", octets "alice"⟩, ⟨octets "x-user", octets "bob"⟩],
      [⟨octets ":method", octets "GET"⟩, ⟨octets ":path", octets "/"⟩,
        ⟨octets "x-user", octets "bob"⟩]],
    blockFrames_carry _, by decide +kernel, by decide +kernel, by decide, by decide +kernel⟩

end CivetWeb
