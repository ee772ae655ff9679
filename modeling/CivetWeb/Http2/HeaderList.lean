import CivetWeb.Http2.HeaderFrame

namespace CivetWeb

open Hpack

/-! ### What a client reads in the place of a string -/

theorem huffmanCode_unique : UniqueCodes := by
  intro text text' k k' hk hk' h
  induction text generalizing text' with
  | nil =>
    cases text' with
    | nil => rfl
    | cons b' text' =>
      obtain ⟨accu, bc, hcollect, -⟩ :=
        huffCollect_octet b' (text'.flatMap huffmanCode ++ List.replicate k' true)
      rw [List.flatMap_nil, List.nil_append, List.flatMap_cons, List.append_assoc] at h
      rw [← h, huffCollect_padding k hk] at hcollect
      cases hcollect
  | cons b text ih =>
    obtain ⟨accu, bc, hcollect, hfind⟩ :=
      huffCollect_octet b (text.flatMap huffmanCode ++ List.replicate k true)
    rw [List.flatMap_cons, List.append_assoc] at h
    cases text' with
    | nil =>
      rw [List.flatMap_nil, List.nil_append] at h
      rw [h, huffCollect_padding k' hk'] at hcollect
      cases hcollect
    | cons b' text' =>
      obtain ⟨accu', bc', hcollect', hfind'⟩ :=
        huffCollect_octet b' (text'.flatMap huffmanCode ++ List.replicate k' true)
      rw [List.flatMap_cons, List.append_assoc] at h
      rw [h, hcollect'] at hcollect
      obtain ⟨rfl, rfl, hrest⟩ : accu' = accu ∧ bc' = bc ∧
          text'.flatMap huffmanCode ++ List.replicate k' true =
            text.flatMap huffmanCode ++ List.replicate k true := by
        simpa using hcollect
      have hb : b = b' := Option.some.inj (hfind.symm.trans hfind')
      rw [hb, ih text' hrest.symm]

theorem ofOctets_inj {a b : List Byte} (h : Bits.ofOctets a = Bits.ofOctets b) : a = b := by
  have hlen := congrArg List.length h
  rw [Bits.ofOctets_length, Bits.ofOctets_length] at hlen
  refine bitAt_ext (by omega) fun q => ?_
  rw [← getD_ofOctets, ← getD_ofOctets, h]

/-- The octets that denote a text are its code. -/
theorem denotes_huffman {stored text : List Byte}
    (h : ∃ k < 8, Bits.ofOctets stored = text.flatMap huffmanCode ++ List.replicate k true) :
    stored = encodeHuffman text := by
  obtain ⟨k, hk, hbits⟩ := h
  obtain ⟨hlen, hpack⟩ := encodeHuffman_length text
  have hstored := Bits.ofOctets_length stored
  rw [hbits, List.length_append, List.length_replicate] at hstored
  refine ofOctets_inj ?_
  rw [hbits, hpack, show 8 * (encodeHuffman text).length - (text.flatMap huffmanCode).length = k by omega]

/-- A length with seven bits, the first of them set, and as many octets, are a Huffman encoded string. -/
theorem readsLiteral_stored {stored T rest : List Byte} {l : Literal} (hshort : stored.length < 127)
    (h : ReadsLiteral (UInt8.ofNat (0x80 + stored.length) :: stored ++ T) l rest) :
    stored = encodeHuffman l.text ∧ rest = T := by
  obtain ⟨data, hint, hflag, hdata⟩ := h
  have hoctet : (UInt8.ofNat (0x80 + stored.length)).toNat = 0x80 + stored.length := by
    rw [UInt8.toNat_ofNat']
    omega
  have hread := (readInt_encode 0x80 7 stored.length (stored ++ T) rfl (by decide)).1
  have hlt : stored.length < 2 ^ 7 - 1 := hshort
  rw [encodeInt, if_pos hlt, List.singleton_append] at hread
  rw [List.cons_append, hread, Option.some.injEq, Prod.mk.injEq] at hint
  obtain ⟨rfl, rfl⟩ := List.append_inj hint.2 hint.1
  have hhuffman : l.huffman = true := by
    rw [hflag _ rfl, hoctet]
    exact decide_eq_true (Nat.le_add_right _ _)
  rw [Literal.Denotes, if_pos hhuffman] at hdata
  exact ⟨denotes_huffman hdata, rfl⟩

theorem huffmanCode_nul : (huffmanCode NUL).length = 13 := by decide +kernel

/-- A text with a NUL has a longer code than what is in front of it. -/
theorem noNul_of_code {text : List Byte}
    (h : (encodeHuffman text).length = (encodeHuffman (cstr text)).length) : NUL ∉ text := by
  have hsplit : cstr text ++ text.dropWhile (· != NUL) = text := List.takeWhile_append_dropWhile
  have hhead := List.head?_dropWhile_not (· != NUL) text
  cases hrest : text.dropWhile (· != NUL) with
  | nil =>
    rw [hrest, List.append_nil] at hsplit
    exact hsplit ▸ cstr_noNul text
  | cons b rest =>
    rw [hrest] at hsplit hhead
    obtain rfl : b = NUL := by simpa using hhead
    have hcode := congrArg (fun s => (s.flatMap huffmanCode).length) hsplit
    rw [List.flatMap_append, List.length_append, List.flatMap_cons, List.length_append,
      huffmanCode_nul] at hcode
    rw [(encodeHuffman_length text).1, (encodeHuffman_length (cstr text)).1] at h
    omega

/-- No string is read from the date. -/
theorem dateBytes_noLiteral {date rest : List Byte} {l : Literal} (hdate : date.length < 64) :
    ¬ ReadsLiteral (dateBytes date) l rest := by
  rintro ⟨data, hint, -, -⟩
  have hread : readInt 7 (dateBytes date) = some (97, UInt8.ofNat date.length :: date) := rfl
  rw [hread, Option.some.injEq, Prod.mk.injEq] at hint
  have hlen := congrArg List.length hint.2
  rw [List.length_cons, List.length_append] at hlen
  omega

/-! ### What is stored -/

/-- What `hpack_encode` stores: nothing, or the length of a code and as many bytes. -/
theorem hpackEncode_part {bin bin' load : List Byte} {store j : Nat} {lower : Bool} (text : List Byte)
    (htext : text = if lower then (cstr load).map tolower else cstr load)
    (h : hpackEncode bin store load lower = some (j, bin')) :
    store + text.length < bin.length ∧ store + (encodeHuffman text).length < bin.length ∧
      bin'.length = bin.length ∧ store + j ≤ bin.length ∧ ∃ part, bin'.take (store + j) = bin.take store ++ part ∧
        (part = [] ∧ 127 ≤ (encodeHuffman text).length ∨
          ∃ stored : List Byte, stored.length = (encodeHuffman text).length ∧ stored.length < 127 ∧
            part = UInt8.ofNat (0x80 + stored.length) :: stored) := by
  have heq := hpackEncode_eq bin store load lower
  dsimp only at heq
  rw [← htext, h] at heq
  by_cases hfit : store + text.length < bin.length ∧ store + (encodeHuffman text).length < bin.length
  swap
  · rw [if_neg hfit] at heq
    cases heq
  have hclear : store + (text.length + 1) ≤ bin.length := hfit.1
  have hlen := length_clearedFor bin store (text.length + 1) hclear
  obtain ⟨out, hout⟩ : ∃ out, out =
    orBytes (clearedFor bin store (text.length + 1)) (store + 1) (encodeHuffman text) := ⟨_, rfl⟩
  have houtlen : out.length = bin.length := by rw [hout, length_orBytes, hlen]
  have hbefore : out.take store = bin.take store := by
    refine ext_getD ?_ ?_
    · rw [List.length_take, List.length_take, houtlen]
    · intro p hp
      rw [List.length_take, houtlen] at hp
      rw [getD_take _ _ _ (by omega), getD_take _ _ _ (by omega), hout, getD_orBytes _ _ _ _ (by omega),
        getD_clearedFor _ _ _ _ hclear, if_neg (by omega), if_neg (by omega)]
      exact UInt8.or_zero
  rw [if_pos hfit, show bin.take store ++ zeros (text.length + 1) ++ bin.drop (store + (text.length + 1)) =
    clearedFor bin store (text.length + 1) from rfl, ← hout] at heq
  refine ⟨hfit.1, hfit.2, ?_⟩
  split_ifs at heq with hlong
  · obtain ⟨rfl, rfl⟩ := Prod.mk.inj (Option.some.inj heq)
    exact ⟨houtlen, by omega, [], by rw [Nat.add_zero, hbefore, List.append_nil], Or.inl ⟨rfl, hlong⟩⟩
  · obtain ⟨rfl, rfl⟩ := Prod.mk.inj (Option.some.inj heq)
    have hstored : ((out.drop (store + 1)).take (encodeHuffman text).length).length =
        (encodeHuffman text).length := by
      rw [List.length_take, List.length_drop, houtlen]
      omega
    refine ⟨by rw [List.length_set, houtlen], by omega, _, ?_, Or.inr ⟨_, hstored, by omega, rfl⟩⟩
    rw [hstored, List.take_add, List.take_set_of_le (Nat.le_refl _), hbefore]
    refine congrArg (bin.take store ++ ·) ?_
    rw [List.drop_eq_getElem_cons (by rw [List.length_set, houtlen]; omega), List.take_succ_cons,
      List.getElem_set_self, List.drop_set_of_lt (Nat.lt_succ_self _)]

/-- A buffer that is filled with ones. -/
def onesStack : List Byte := List.replicate HEADER_BIN_LEN 0xFF

theorem onesStack_length : onesStack.length = HEADER_BIN_LEN := List.length_replicate

theorem leftByte_ones {cleared p : Nat} (hleft : cleared ≤ p) (hp : p < HEADER_BIN_LEN) :
    leftByte onesStack cleared p = 0xFF := by
  rw [leftByte, if_neg (Nat.not_lt.mpr hleft), onesStack, List.getD_eq_getElem?_getD,
    List.getElem?_replicate_of_lt hp]
  rfl

/-- Where a code is stored as it is although the buffer is filled with ones, it has its place. -/
theorem places_of_stored {bin bin' done load stored : List Byte} {cur : Cursor} {j : Nat} {lower : Bool}
    (hbin : Filled onesStack bin cur done) (text : List Byte)
    (htext : text = if lower then (cstr load).map tolower else cstr load)
    (h : hpackEncode bin cur.len load lower = some (j, bin')) (hshort : stored.length < 127)
    (htake : bin'.take (cur.len + j) = done ++ UInt8.ofNat (0x80 + stored.length) :: stored)
    (hstored : stored = encodeHuffman text) :
    cur.Places text ∧ j = (encodeHuffman text).length + 1 ∧
      ∃ done', Filled onesStack bin' (cur.string text) done' := by
  obtain ⟨hfit, hroom, -, -, -⟩ := hpackEncode_part text htext h
  rw [hbin.length] at hfit hroom
  rw [hstored] at hshort
  obtain ⟨bin'', h', hfilled⟩ := hpackEncode_stored hbin load lower text htext hshort hfit hroom
  rw [h, Option.some.injEq, Prod.mk.injEq] at h'
  obtain ⟨rfl, rfl⟩ := h'
  have htaken := hfilled.taken
  rw [show (cur.string text).len = cur.len + ((encodeHuffman text).length + 1) from rfl, htake, hstored,
    List.append_cancel_left_eq, List.cons.injEq] at htaken
  rw [onesStack_length] at hfit hroom
  refine ⟨⟨hshort, hfit, hroom, ?_⟩, rfl, _, hfilled⟩
  intro p hp hleft
  have hbyte := getD_storedBytes onesStack (cur.string text).cleared (cur.len + 1) (encodeHuffman text) p hp
  rw [← htaken.2, leftByte_ones hleft (by omega), UInt8.or_comm, ones_or] at hbyte
  exact hbyte

/-- A value that a client reads has its place. -/
theorem value_of_read {bin bin' done part behind rest value : List Byte} {cur : Cursor} {j : Nat}
    {l : Literal} (hbin : Filled onesStack bin cur done)
    (h : hpackEncode bin cur.len value false = some (j, bin'))
    (htake : bin'.take (cur.len + j) = done ++ part)
    (hbehind : ∀ l rest, ¬ ReadsLiteral behind l rest) (hread : ReadsLiteral (part ++ behind) l rest)
    (hl : l.text = value) : NUL ∉ value ∧ cur.Places value := by
  obtain ⟨-, -, -, -, part', htake', hpart⟩ := hpackEncode_part (cstr value) rfl h
  rw [hbin.taken, htake, List.append_cancel_left_eq] at htake'
  subst htake'
  rcases hpart with ⟨rfl, -⟩ | ⟨stored, hlen, hshort, rfl⟩
  · exact absurd hread (hbehind l rest)
  · obtain ⟨hstored, -⟩ := readsLiteral_stored hshort hread
    rw [hl] at hstored
    have hnul : NUL ∉ value := noNul_of_code (by rw [← hstored, hlen])
    have hctext : value = if false then (cstr value).map tolower else cstr value :=
      (cstr_of_no_nul _ hnul).symm
    exact ⟨hnul, (places_of_stored hbin value hctext h hshort htake hstored).1⟩

theorem putBytes_some {bin bin' s : List Byte} {k : Nat} (h : putBytes bin k s = some bin') :
    k + s.length ≤ bin.length := by
  unfold putBytes at h
  split_ifs at h with hroom
  exact hroom

/-- What a header adds to the buffer, whether it fits or not. -/
theorem addHeaderBytes_part {bin bin' : List Byte} {len len' : Nat} {h : MgHeader}
    (hadd : addHeaderBytes h bin len = some (bin', len')) :
    bin'.length = bin.length ∧ len' ≤ bin.length ∧ ∃ part, bin'.take len' = bin.take len ++ part := by
  have hput {b : Byte} {bin0 : List Byte} (h : putBytes bin len [b] = some bin0) :
      bin0.length = bin.length ∧ bin0.take (len + 1) = bin.take len ++ [b] := by
    have hroom := putBytes_some h
    unfold putBytes at h
    rw [if_pos hroom] at h
    obtain rfl := Option.some.inj h
    rw [List.length_singleton] at hroom ⊢
    constructor
    · simp only [List.length_append, List.length_take, List.length_drop, List.length_singleton]
      omega
    · rw [List.take_left']
      rw [List.length_append, List.length_take, List.length_singleton]
      omega
  unfold addHeaderBytes at hadd
  dsimp only at hadd
  obtain ⟨⟨bin1, len1⟩, hkey, hadd⟩ := Option.bind_eq_some_iff.mp hadd
  obtain ⟨⟨j, bin2⟩, hvalue, hadd⟩ := Option.map_eq_some_iff.mp hadd
  obtain ⟨rfl, rfl⟩ := Prod.mk.inj hadd
  obtain ⟨-, -, hlen, hroom, part, htake, -⟩ := hpackEncode_part (cstr h.value) rfl hvalue
  dsimp only at hlen hroom htake
  split_ifs at hkey
  · obtain ⟨bin0, hbin0, hkey⟩ := Option.map_eq_some_iff.mp hkey
    obtain ⟨rfl, rfl⟩ := Prod.mk.inj hkey
    obtain ⟨hlen0, htake0⟩ := hput hbin0
    rw [htake0, List.append_assoc] at htake
    exact ⟨hlen.trans hlen0, hroom.trans_eq hlen0, _, htake⟩
  · obtain ⟨bin0, hbin0, hkey⟩ := Option.bind_eq_some_iff.mp hkey
    obtain ⟨⟨i, bin1'⟩, henc, hkey⟩ := Option.map_eq_some_iff.mp hkey
    obtain ⟨rfl, rfl⟩ := Prod.mk.inj hkey
    obtain ⟨hlen0, htake0⟩ := hput hbin0
    obtain ⟨-, -, hlen1, -, part1, htake1, -⟩ := hpackEncode_part _ rfl henc
    rw [htake1, htake0, List.append_assoc, List.append_assoc] at htake
    exact ⟨hlen.trans (hlen1.trans hlen0), hroom.trans_eq (hlen1.trans hlen0), _, htake⟩

/-- The text of a field that a literal means. -/
theorem decode_literal {limit : Nat} {t t' : Table} {indexing : Indexing} {name : Name} {value : Literal}
    {first : Option Field} {f : Field} {fields fields' : List Field}
    (h : t.decode limit (.literal indexing name value) = some (first, t'))
    (hfirst : f :: fields = first.toList ++ fields') :
    t.name? name = some f.name ∧ value.text = f.value := by
  obtain ⟨n, hn, h⟩ := Option.map_eq_some_iff.mp h
  obtain ⟨rfl, -⟩ := Prod.mk.inj h
  obtain ⟨rfl, -⟩ := List.cons.inj hfirst
  exact ⟨hn, rfl⟩

/-- A header that a client reads has its place. -/
theorem fits_of_read {bin bin' done behind X rest : List Byte} {cur : Cursor} {len' limit : Nat}
    (hbin : Filled onesStack bin cur done) (h : MgHeader) (hname : NUL ∉ h.name)
    (hadd : addHeaderBytes h bin cur.len = some (bin', len')) (hX : bin'.take len' = done ++ X)
    (hbehind : ∀ l rest, ¬ ReadsLiteral behind l rest) (r : Rep) (hr : ReadsRep (X ++ behind) r rest)
    (t t' : Table) {first : Option Field} {fields fields' : List Field}
    (hdec : t.decode limit r = some (first, t')) (hfirst : sentField h :: fields = first.toList ++ fields') :
    cur.Fits h := by
  have hcname : h.name.map tolower = if true then (cstr h.name).map tolower else cstr h.name := by
    rw [cstr_of_no_nul _ hname, if_pos rfl]
  unfold addHeaderBytes at hadd
  dsimp only at hadd
  obtain ⟨⟨bin1, len1⟩, hkey, hadd⟩ := Option.bind_eq_some_iff.mp hadd
  obtain ⟨⟨j, bin2⟩, hvalue, hadd⟩ := Option.map_eq_some_iff.mp hadd
  obtain ⟨rfl, rfl⟩ := Prod.mk.inj hadd
  dsimp only at hvalue hX
  by_cases hpredef : predefinedIndex h.name ≠ 0
  · rw [if_pos hpredef] at hkey
    obtain ⟨bin0, hput, hkey⟩ := Option.map_eq_some_iff.mp hkey
    obtain ⟨rfl, rfl⟩ := Prod.mk.inj hkey
    have hroom : cur.len < bin.length := putBytes_some hput
    rw [hbin.length] at hroom
    obtain ⟨bin', hput', hfilled⟩ := putByte_filled hbin _ hroom
    obtain rfl := Option.some.inj (hput'.symm.trans hput)
    obtain ⟨-, -, -, -, part, htake, -⟩ := hpackEncode_part (cstr h.value) rfl hvalue
    rw [show cur.len + 1 = (cur.bytes 1).len from rfl] at hvalue htake hX
    rw [hfilled.taken] at htake
    rw [htake, List.append_assoc, List.append_cancel_left_eq] at hX
    subst hX
    have hlt : predefinedIndex h.name < 2 ^ 6 - 1 := by
      rcases predefinedIndex_cases h.name with h0 | ⟨-, h61, -⟩
      · exact absurd h0 hpredef
      · omega
    obtain ⟨name, value, s', rfl, hentry, hreadname, hread⟩ := readsRep_literal .incremental hlt hr
    obtain ⟨hstatic, htext⟩ := decode_literal hdec hfirst
    cases name with
    | new text => exact absurd hentry.symm hpredef
    | index i =>
      obtain rfl : i = predefinedIndex h.name := hentry
      rw [hreadname.2] at hread
      obtain ⟨hnul, hplaces⟩ := value_of_read hfilled hvalue htake hbehind hread htext
      obtain ⟨h25, h26⟩ := (static_name h.name hname hpredef t).mp hstatic
      refine ⟨hnul, hroom.trans_eq onesStack_length, ?_⟩
      rw [if_pos hpredef]
      exact ⟨h25, h26, hplaces⟩
  · rw [if_neg hpredef] at hkey
    obtain ⟨bin0, hput, hkey⟩ := Option.bind_eq_some_iff.mp hkey
    obtain ⟨⟨i, bin1'⟩, henc, hkey⟩ := Option.map_eq_some_iff.mp hkey
    obtain ⟨rfl, rfl⟩ := Prod.mk.inj hkey
    have hroom : cur.len < bin.length := putBytes_some hput
    rw [hbin.length] at hroom
    obtain ⟨bin', hput', hfilled⟩ := putByte_filled hbin _ hroom
    obtain rfl := Option.some.inj (hput'.symm.trans hput)
    dsimp only at hvalue hX henc
    obtain ⟨-, -, -, -, part, htake, hpart⟩ := hpackEncode_part _ hcname henc
    obtain ⟨-, -, -, -, part', htake', hpart'⟩ := hpackEncode_part (cstr h.value) rfl hvalue
    rw [show cur.len + 1 = (cur.bytes 1).len from rfl] at henc htake htake' hX hvalue
    rw [hfilled.taken] at htake
    rw [htake', htake, List.append_assoc, List.append_assoc, List.append_cancel_left_eq] at hX
    subst hX
    obtain ⟨name, value, s', rfl, hentry, hreadname, hread⟩ :=
      readsRep_literal .never (by decide : 0 < 2 ^ 4 - 1) hr
    obtain ⟨hlower, htext⟩ := decode_literal hdec hfirst
    cases name with
    | index i => exact absurd hentry hreadname.1
    | new text =>
      have hreadtext : ReadsLiteral (part ++ (part' ++ behind)) text s' := by
        rw [← List.append_assoc]
        exact hreadname
      rcases hpart with ⟨rfl, -⟩ | ⟨stored, hlen, hshort, rfl⟩
      · -- the name is left out: the value, if any, is read as the name
        rcases hpart' with ⟨rfl, -⟩ | ⟨stored, hlen, hshort, rfl⟩
        · exact absurd hreadtext (hbehind _ _)
        · obtain ⟨-, rfl⟩ := readsLiteral_stored hshort hreadtext
          exact absurd hread (hbehind _ _)
      · obtain ⟨hstored, rfl⟩ := readsLiteral_stored hshort hreadtext
        rw [Option.some.inj hlower] at hstored
        obtain ⟨hplaces, rfl, done', hfilled'⟩ := places_of_stored hfilled _ hcname henc hshort htake hstored
        have htake'' : bin2.take (((cur.bytes 1).string (h.name.map tolower)).len + j) = done' ++ part' := by
          rw [← hfilled'.taken]
          exact htake'
        obtain ⟨hnul, hplaces'⟩ := value_of_read hfilled' hvalue htake'' hbehind hread htext
        refine ⟨hnul, hroom.trans_eq onesStack_length, ?_⟩
        rw [if_neg hpredef]
        exact ⟨hplaces, hplaces'⟩

/-! ### The lists that can be encoded -/

theorem addAllHeaders_append (hs : List MgHeader) (h : MgHeader) (bin : List Byte) (len : Nat) :
    addAllHeaders (hs ++ [h]) bin len =
      (addAllHeaders hs bin len).bind fun (bin, len) => addHeaderBytes h bin len := by
  induction hs generalizing bin len with
  | nil =>
    rw [List.nil_append, addAllHeaders, addAllHeaders, Option.bind_some]
    exact Option.bind_fun_some _
  | cons h' hs ih =>
    rw [List.cons_append, addAllHeaders, addAllHeaders, Option.bind_assoc]
    exact congrArg (Option.bind _) (funext fun p => ih p.1 p.2)

theorem headersFit_append (cur : Cursor) (hs : List MgHeader) (h : MgHeader) :
    HeadersFit cur (hs ++ [h]) ↔ HeadersFit cur hs ∧ (hs.foldl Cursor.header cur).Fits h := by
  induction hs generalizing cur with
  | nil => exact ⟨fun hfit => ⟨trivial, hfit.1⟩, fun hfit => ⟨hfit.2, trivial⟩⟩
  | cons h' hs ih =>
    rw [List.cons_append, HeadersFit, HeadersFit, ih, List.foldl_cons, and_assoc]

/-- What is sent behind the status and these headers is read as the fields behind them. -/
theorem readsBlock_behind {hs : List MgHeader} {cur : Cursor} (hnames : ∀ h ∈ hs, NUL ∉ h.name)
    (hfit : HeadersFit cur hs) {status : Nat} {behind : List Byte} {fields : List Field} {t t' : Table}
    (h : t.Decodes HTTP2_HEADER_TABLE_SIZE
      (encodeBlock (statusRep status :: hs.map headerRep) ++ behind)
      (⟨ascii ":status", decText status⟩ :: (hs.map sentField ++ fields)) t') :
    ∃ u : Table, u.Decodes HTTP2_HEADER_TABLE_SIZE behind fields t' := by
  obtain ⟨reps, hreads, hdec⟩ := h
  have hnamed : ∀ r ∈ statusRep status :: hs.map headerRep, r.Named := by
    intro r hr
    rcases List.mem_cons.mp hr with rfl | hr
    · exact statusRep_named status
    · obtain ⟨h, -, rfl⟩ := List.mem_map.mp hr
      exact headerRep_named h
  obtain ⟨reps', rfl, hbehind⟩ := readsBlock_append huffmanCode_unique hnamed hreads
  obtain ⟨u, rest, hrest, hfields⟩ := decodeBlock_append
    (.cons (statusRep_means _ status) (headersFit_means _ hs hnames hfit)) hdec
  rw [← List.cons_append, List.append_cancel_left_eq] at hfields
  exact ⟨u, reps', hbehind, hfields ▸ hrest⟩

/-- The block of a response that is sent is in the frame, and decodes to the fields. -/
theorem block_of_sent {streamId : UInt32} {date stack : List Byte} {c : ResponseConn}
    (hsend : CanSend c.out.sends (9 + HEADER_BIN_LEN)) (hsent : HeadersSent streamId date c)
    (hstack : stack.length = HEADER_BIN_LEN) :
    ∃ block, headerBlock stack c.statusCode c.responseHeaders date = some block ∧
      (block.length ≤ HEADER_BIN_LEN → ∀ t : Table, ∃ t', t.Decodes HTTP2_HEADER_TABLE_SIZE block
        (responseFields c.statusCode c.responseHeaders date) t') := by
  obtain ⟨ok, out, hrun, hok⟩ := hsent stack hstack
  obtain ⟨block, hblock, -⟩ := Option.map_eq_some_iff.mp hrun
  refine ⟨block, hblock, ?_⟩
  intro hlen
  obtain ⟨out', hrun', hsent'⟩ := sendResponseHeaders_block streamId hblock hlen hsend
  rw [hrun, Option.some.injEq, Prod.mk.injEq] at hrun'
  obtain ⟨rfl, rfl⟩ := hrun'
  obtain ⟨frame, block', hframe, hread, hdec⟩ := hok
  rw [hframe, List.append_cancel_left_eq] at hsent'
  rw [hsent', readFrame_headers streamId block hlen, Option.some.injEq, Prod.mk.injEq,
    Http2Frame.mk.injEq] at hread
  rw [hread.1.2.2.2]
  exact hdec

/-- A header that is added to a list that can be encoded fits, if the list is sent. -/
theorem encodable_of_sent {streamId : UInt32} {date : List Byte} {c t : ResponseConn} {h : MgHeader}
    (hdate : date.length < 64) (hstatus : 100 ≤ c.statusCode ∧ c.statusCode ≤ 999)
    (hsend : CanSend c.out.sends (9 + HEADER_BIN_LEN))
    (hnames : ∀ h' ∈ c.responseHeaders ++ [h], NUL ∉ h'.name)
    (henc : Encodable c.statusCode date c.responseHeaders)
    (ht : t = { c with responseHeaders := c.responseHeaders ++ [h] }) (hsent : HeadersSent streamId date t) :
    Encodable c.statusCode date (c.responseHeaders ++ [h]) := by
  obtain ⟨hfit, hroom⟩ := henc
  have hall : sentHeaders (c.responseHeaders ++ [h]) = sentHeaders c.responseHeaders ++ sentHeaders [h] :=
    List.filter_append ..
  by_cases hconn : mgStrcasecmp (ascii "Connection") h.name = 0
  · have hnone : sentHeaders [h] = [] := by simp [sentHeaders, hconn]
    rw [hnone, List.append_nil] at hall
    rw [Encodable, hall]
    exact ⟨hfit, hroom⟩
  have hone : sentHeaders [h] = [h] := by simp [sentHeaders, hconn]
  rw [hone] at hall
  have hname : NUL ∉ h.name := hnames h (by simp)
  have hnames' : ∀ h' ∈ sentHeaders c.responseHeaders, NUL ∉ h'.name :=
    sentHeaders_names fun h' hh' => hnames h' (List.mem_append_left _ hh')
  -- the block that is written into a buffer of ones
  obtain ⟨bin, bin1, hput, hadd, hfilled⟩ := headers_filled onesStack_length hstatus _ hnames' hfit
  obtain ⟨block, hblock, hdec⟩ := block_of_sent (by rw [ht]; exact hsend) hsent onesStack_length
  rw [ht] at hblock hdec
  dsimp only at hblock hdec
  rw [headerBlock_withDate, hput, Option.bind_some, hall, addAllHeaders_append, hadd, Option.bind_some,
    ← hall] at hblock
  obtain ⟨⟨bin2, len2⟩, hadd2, hwith⟩ := Option.bind_eq_some_iff.mp hblock
  dsimp only at hadd2 hwith
  obtain ⟨hlen2, hle2, part, hpart⟩ := addHeaderBytes_part hadd2
  rw [hfilled.taken] at hpart
  rw [withDate_eq (hle2.trans_eq hlen2.symm), Option.ite_none_right_eq_some, Option.some.injEq] at hwith
  obtain ⟨hroom2, hblock⟩ := hwith
  have hbin2 : bin2.length = HEADER_BIN_LEN := hlen2.trans (hfilled.length.trans onesStack_length)
  have hlen : block.length ≤ HEADER_BIN_LEN := by
    rw [← hblock, List.length_append, List.length_take]
    split_ifs at hroom2 ⊢ with hgiven
    · rw [List.length_nil]
      omega
    · have := hroom2.resolve_left hgiven
      omega
  -- its header is read back
  obtain ⟨t', hdec⟩ := hdec hlen (Table.empty 0)
  rw [responseFields_eq _ _ _ hnames, ← hblock, hpart, List.append_assoc, hall, List.map_append,
    List.append_assoc] at hdec
  obtain ⟨u, reps, hreads, hdec⟩ := readsBlock_behind hnames' hfit hdec
  have hbehind (l : Literal) (rest : List Byte) : ¬ ReadsLiteral
      (if hasHeader (ascii "Date") (sentHeaders c.responseHeaders ++ [h]) then [] else dateBytes date)
      l rest := by
    split_ifs
    · rintro ⟨data, hint, -⟩
      cases hint
    · exact dateBytes_noLiteral hdate
  have hfits : (headersCursor c.statusCode (sentHeaders c.responseHeaders)).Fits h := by
    cases reps with
    | nil => simp [Table.decodeBlock] at hdec
    | cons r reps =>
      obtain ⟨rest, hr, -⟩ := hreads
      obtain ⟨first, u', fields', hfirst, -, hfields⟩ := u.decodeBlock_cons _ _ r reps _ hdec
      exact fits_of_read hfilled h hname hadd2 hpart hbehind r hr u u' hfirst hfields
  obtain ⟨bin2', hadd2', -⟩ := addHeaderBytes_fits hfilled onesStack_length h hname hfits
  rw [hadd2, Option.some.injEq, Prod.mk.injEq] at hadd2'
  rw [hbin2, hadd2'.2, hall] at hroom2
  rw [Encodable, hall]
  refine ⟨(headersFit_append _ _ h).mpr ⟨hfit, hfits⟩, ?_⟩
  rw [headersCursor, List.foldl_append]
  exact hroom2

/-- The header that is added leaves a list that can be encoded. -/
def HeaderFits (date : List Byte) (c : ResponseConn) (a : AddedHeader) : Prop :=
  Encodable c.statusCode date (c.responseHeaders ++ [a.header])

instance (date : List Byte) (c : ResponseConn) (a : AddedHeader) : Decidable (HeaderFits date c a) :=
  inferInstanceAs (Decidable (Encodable _ _ _))

/-- A connection that can send, with headers that can be encoded. -/
structure Sendable (date : List Byte) (c : ResponseConn) : Prop where
  status : 100 ≤ c.statusCode ∧ c.statusCode ≤ 999
  sends : CanSend c.out.sends (9 + HEADER_BIN_LEN)
  names : ∀ h ∈ c.responseHeaders, NUL ∉ h.name
  encodable : Encodable c.statusCode date c.responseHeaders

theorem encodable_nil (statusCode : Int) {date : List Byte} (hdate : date.length < 64) :
    Encodable statusCode date [] := by
  have hlen := statusBytes_length (sentStatus statusCode)
  refine ⟨trivial, Or.inr ?_⟩
  simp only [headersCursor, sentHeaders, List.filter_nil, List.foldl_nil, dateBytes, List.length_cons,
    HEADER_BIN_LEN]
  omega

theorem added_names {c : ResponseConn} (hnames : ∀ h ∈ c.responseHeaders, NUL ∉ h.name) (a : AddedHeader) :
    ∀ h ∈ c.responseHeaders ++ [a.header], NUL ∉ h.name := by
  intro h hh
  rcases List.mem_append.mp hh with hh | hh
  · exact hnames h hh
  · rw [List.mem_singleton.mp hh]
    exact cstr_noNul a.name

/-- The lists of headers that a handler adds are all sent as they are exactly if each header that is added
leaves a list that can be encoded. -/
theorem responseHeaders_sent (streamId : UInt32) (date : List Byte) (c : ResponseConn)
    (adds : List AddedHeader) (hdate : date.length < 64)
    (hstatus : 100 ≤ c.statusCode ∧ c.statusCode ≤ 999)
    (hsend : CanSend c.out.sends (9 + HEADER_BIN_LEN)) (hnone : c.responseHeaders = []) :
    System.Always addHeaderStep (HeadersSent streamId date) c adds ↔
      System.Along addHeaderStep (HeaderFits date) c adds := by
  refine System.always_iff_along_kept addHeaderStep (Sendable date) _ _ ?_ ?_ ?_ c adds ?_
  · intro s hs
    exact headersSent_encodable hdate hs.status hs.sends hs.names hs.encodable
  · intro s a t hs hstep hfits
    obtain rfl := addHeaderStep_eq s t a hstep
    exact ⟨hs.status, hs.sends, added_names hs.names a, hfits⟩
  · intro s a t hs hstep hsent
    exact encodable_of_sent hdate hs.status hs.sends (added_names hs.names a) hs.encodable
      (addHeaderStep_eq s t a hstep) hsent
  · refine ⟨hstatus, hsend, ?_, ?_⟩
    · rw [hnone]
      exact List.forall_mem_nil _
    · rw [hnone]
      exact encodable_nil c.statusCode hdate

/-- A handler that has started a response with status 200. -/
def startedResponse : ResponseConn := { requestConn with
  requestState := 1
  statusCode := 200
  out := ⟨List.replicate (9 + HEADER_BIN_LEN) (.accept INT_MAX), [], 0, 0, 0, 0, []⟩ }

theorem responseHeaders_sent_type :
    System.Always addHeaderStep (HeadersSent 1 (anyDate 0)) startedResponse
      [⟨ascii "Content-Type", ascii "text/html", -1⟩, ⟨ascii "Connection", ascii "close", -1⟩,
        ⟨ascii "X-Id", ascii "7", -1⟩] := by
  refine (responseHeaders_sent 1 (anyDate 0) startedResponse _ (by decide) (by decide)
    (canSend_replicate _ _ le_rfl) rfl).mpr ?_
  intro t ht
  refine ⟨by decide +kernel, ?_⟩
  obtain rfl := addHeaderStep_eq _ _ _ ht
  intro t ht
  refine ⟨by decide +kernel, ?_⟩
  obtain rfl := addHeaderStep_eq _ _ _ ht
  intro t ht
  exact ⟨by decide +kernel, trivial⟩

/-- A value with 200 letters is left out. -/
theorem responseHeaders_unsent : ∃ t, System.run addHeaderStep startedResponse
    [⟨ascii "X-Id", List.replicate 200 122, -1⟩] = some t ∧ ¬ HeadersSent 1 (anyDate 0) t := by
  refine ⟨{ startedResponse with responseHeaders := [⟨ascii "X-Id", List.replicate 200 122⟩] },
    by decide +kernel, ?_⟩
  intro hsent
  have hfits := encodable_of_sent (c := startedResponse) (h := ⟨ascii "X-Id", List.replicate 200 122⟩)
    (by decide) (by decide) (canSend_replicate _ _ le_rfl) (by decide) (by decide +kernel) rfl hsent
  exact absurd hfits (by decide +kernel)

end CivetWeb
