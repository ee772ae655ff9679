import CivetWeb.Http2.ResponseHeaders
import CivetWeb.Response.HeadOnce

namespace CivetWeb

open Hpack

/-- Where the next byte of a header block comes; behind it the buffer is cleared up to `cleared`. -/
structure Cursor where
  len : Nat
  cleared : Nat
  deriving DecidableEq, Repr

def Cursor.bytes (cur : Cursor) (n : Nat) : Cursor := ⟨cur.len + n, cur.cleared⟩

/-- Behind a string: its code with a byte for the length, and the bytes cleared for the text itself. -/
def Cursor.string (cur : Cursor) (text : List Byte) : Cursor :=
  ⟨cur.len + ((encodeHuffman text).length + 1), max cur.cleared (cur.len + (text.length + 1))⟩

def Cursor.header (cur : Cursor) (h : MgHeader) : Cursor :=
  if predefinedIndex h.name ≠ 0 then (cur.bytes 1).string h.value
  else ((cur.bytes 1).string (h.name.map tolower)).string h.value

/-- A string has its place in the buffer: the length of its code has seven bits, and is not all of them;
the text and its code end in front of the last byte; and where the code goes on behind what is cleared, it
has ones only. -/
def Cursor.Places (cur : Cursor) (text : List Byte) : Prop :=
  (encodeHuffman text).length < 127 ∧ cur.len + text.length < HEADER_BIN_LEN ∧
    cur.len + (encodeHuffman text).length < HEADER_BIN_LEN ∧
    ∀ j < (encodeHuffman text).length, (cur.string text).cleared ≤ cur.len + 1 + j →
      (encodeHuffman text).getD j 0 = 0xFF

/-- A header that is known has its place with its value, but for the two that are swapped; another one
with its name and its value. -/
def Cursor.Fits (cur : Cursor) (h : MgHeader) : Prop :=
  NUL ∉ h.value ∧ cur.len < HEADER_BIN_LEN ∧
    if predefinedIndex h.name ≠ 0 then
      predefinedIndex h.name ≠ 25 ∧ predefinedIndex h.name ≠ 26 ∧ (cur.bytes 1).Places h.value
    else (cur.bytes 1).Places (h.name.map tolower) ∧
      ((cur.bytes 1).string (h.name.map tolower)).Places h.value

def HeadersFit : Cursor → List MgHeader → Prop
  | _, [] => True
  | cur, h :: hs => cur.Fits h ∧ HeadersFit (cur.header h) hs

instance (cur : Cursor) (text : List Byte) : Decidable (cur.Places text) :=
  inferInstanceAs (Decidable (_ ∧ _))

instance (cur : Cursor) (h : MgHeader) : Decidable (cur.Fits h) := inferInstanceAs (Decidable (_ ∧ _))

instance (cur : Cursor) (hs : List MgHeader) : Decidable (HeadersFit cur hs) := by
  induction hs generalizing cur with
  | nil => exact inferInstanceAs (Decidable True)
  | cons h hs ih =>
    have := ih (cur.header h)
    exact inferInstanceAs (Decidable (_ ∧ _))

/-- Behind the status and these headers. -/
def headersCursor (statusCode : Int) (hs : List MgHeader) : Cursor :=
  hs.foldl Cursor.header ⟨(statusBytes (sentStatus statusCode)).length, 0⟩

/-- The headers that are sent have their places, and the date, if it is added. -/
def Encodable (statusCode : Int) (date : List Byte) (headers : List MgHeader) : Prop :=
  let hs := sentHeaders headers
  HeadersFit ⟨(statusBytes (sentStatus statusCode)).length, 0⟩ hs ∧
    (hasHeader (ascii "Date") hs = true ∨
      (headersCursor statusCode hs).len + (dateBytes date).length ≤ HEADER_BIN_LEN)

instance (statusCode : Int) (date : List Byte) (headers : List MgHeader) :
    Decidable (Encodable statusCode date headers) := inferInstanceAs (Decidable (_ ∧ _))

/-! ### What is in the buffer -/

theorem ext_getD {a b : List Byte} (hlen : a.length = b.length)
    (h : ∀ p < a.length, a.getD p 0 = b.getD p 0) : a = b := by
  refine List.ext_getElem hlen fun i ha hb => ?_
  have hi := h i ha
  rwa [List.getD_eq_getElem?_getD, List.getD_eq_getElem?_getD, List.getElem?_eq_getElem ha,
    List.getElem?_eq_getElem hb] at hi

/-- A byte of the buffer that has not been written: it is zero if it has been cleared. -/
def leftByte (stack : List Byte) (cleared p : Nat) : Byte := if p < cleared then 0 else stack.getD p 0

/-- The buffer with these bytes written. -/
structure Filled (stack bin : List Byte) (cur : Cursor) (done : List Byte) : Prop where
  length : bin.length = stack.length
  written : done.length = cur.len
  taken : bin.take cur.len = done
  left : ∀ p, cur.len ≤ p → bin.getD p 0 = leftByte stack cur.cleared p

theorem Filled.room {stack bin done : List Byte} {cur : Cursor} (h : Filled stack bin cur done) :
    cur.len ≤ stack.length := by
  have hlen := h.written
  rw [← h.taken, List.length_take, h.length] at hlen
  omega

theorem filled_stack (stack : List Byte) : Filled stack stack ⟨0, 0⟩ [] :=
  ⟨rfl, rfl, rfl, fun p _ => (if_neg (Nat.not_lt_zero p)).symm⟩

theorem getD_append (a b : List Byte) (p : Nat) :
    (a ++ b).getD p 0 = if p < a.length then a.getD p 0 else b.getD (p - a.length) 0 := by
  simp only [List.getD_eq_getElem?_getD]
  split_ifs with h
  · rw [List.getElem?_append_left h]
  · rw [List.getElem?_append_right (by omega)]

theorem getD_take (a : List Byte) (n p : Nat) (h : p < n) : (a.take n).getD p 0 = a.getD p 0 := by
  rw [List.getD_eq_getElem?_getD, List.getElem?_take_of_lt h, List.getD_eq_getElem?_getD]

theorem getD_drop (a : List Byte) (n p : Nat) : (a.drop n).getD p 0 = a.getD (n + p) 0 := by
  rw [List.getD_eq_getElem?_getD, List.getElem?_drop, List.getD_eq_getElem?_getD]

theorem putBytes_filled {stack bin done : List Byte} {cur : Cursor} (h : Filled stack bin cur done)
    (s : List Byte) (hroom : cur.len + s.length ≤ stack.length) :
    ∃ bin', putBytes bin cur.len s = some bin' ∧ Filled stack bin' (cur.bytes s.length) (done ++ s) := by
  have htake : (bin.take cur.len).length = cur.len := by rw [h.taken, h.written]
  have hfit : cur.len + s.length ≤ bin.length := hroom.trans_eq h.length.symm
  refine ⟨_, if_pos hfit, ?_, ?_, ?_, ?_⟩
  · simp only [List.length_append, List.length_drop, htake, ← h.length]
    omega
  · rw [List.length_append, h.written]
    rfl
  · rw [Cursor.bytes, h.taken, List.take_left' (by rw [List.length_append, h.written])]
  · intro p hp
    simp only [Cursor.bytes] at hp ⊢
    have hlen : (bin.take cur.len ++ s).length = cur.len + s.length := by
      rw [List.length_append, htake]
    rw [getD_append, hlen, if_neg (by omega), getD_drop,
      show cur.len + s.length + (p - (cur.len + s.length)) = p by omega]
    exact h.left p (by omega)

theorem putByte_filled {stack bin done : List Byte} {cur : Cursor} (h : Filled stack bin cur done)
    (b : Byte) (hroom : cur.len < stack.length) :
    ∃ bin', putBytes bin cur.len [b] = some bin' ∧ Filled stack bin' (cur.bytes 1) (done ++ [b]) :=
  putBytes_filled h [b] hroom

/-- The bytes of a code as they are stored, with what is left in the buffer added to them. -/
def storedBytes (stack : List Byte) (cleared k : Nat) (data : List Byte) : List Byte :=
  data.mapIdx fun j b => b ||| leftByte stack cleared (k + j)

theorem length_storedBytes (stack : List Byte) (cleared k : Nat) (data : List Byte) :
    (storedBytes stack cleared k data).length = data.length := List.length_mapIdx

theorem getD_storedBytes (stack : List Byte) (cleared k : Nat) (data : List Byte) (j : Nat)
    (hj : j < data.length) : (storedBytes stack cleared k data).getD j 0 =
      data.getD j 0 ||| leftByte stack cleared (k + j) := by
  simp [storedBytes, List.getD_eq_getElem?_getD, hj]

theorem getD_orBytes (bin : List Byte) (k : Nat) (s : List Byte) (p : Nat) (hp : p < bin.length) :
    (orBytes bin k s).getD p 0 = bin.getD p 0 ||| if k ≤ p then s.getD (p - k) 0 else 0 := by
  simp [orBytes, List.getD_eq_getElem?_getD, hp]

/-- The buffer with the bytes for a text cleared. -/
def clearedFor (bin : List Byte) (store n : Nat) : List Byte :=
  bin.take store ++ zeros n ++ bin.drop (store + n)

theorem length_clearedFor (bin : List Byte) (store n : Nat) (h : store + n ≤ bin.length) :
    (clearedFor bin store n).length = bin.length := by
  simp only [clearedFor, zeros, List.length_append, List.length_take, List.length_replicate,
    List.length_drop]
  omega

theorem getD_clearedFor (bin : List Byte) (store n p : Nat) (h : store + n ≤ bin.length) :
    (clearedFor bin store n).getD p 0 = if store ≤ p ∧ p < store + n then 0 else bin.getD p 0 := by
  have htake : (bin.take store).length = store := by
    rw [List.length_take]
    omega
  have hzeros : (zeros n).length = n := List.length_replicate
  rw [clearedFor, List.append_assoc, getD_append, htake]
  by_cases h1 : p < store
  · rw [if_pos h1, getD_take _ _ _ h1, if_neg (by omega)]
  · rw [if_neg h1, getD_append, hzeros]
    by_cases h2 : p < store + n
    · rw [if_pos (by omega), if_pos (by omega), zeros, List.getD_eq_getElem?_getD,
        List.getElem?_replicate_of_lt (by omega)]
      rfl
    · rw [if_neg (by omega), if_neg (by omega), getD_drop, show store + n + (p - store - n) = p by omega]

/-- A string that is not too long for `hpack_encode` is stored with what is left in the buffer. -/
theorem hpackEncode_stored {stack bin done : List Byte} {cur : Cursor} (h : Filled stack bin cur done)
    (load : List Byte) (lower : Bool) (text : List Byte)
    (htext : text = if lower then (cstr load).map tolower else cstr load)
    (hshort : (encodeHuffman text).length < 127) (hfit : cur.len + text.length < stack.length)
    (hroom : cur.len + (encodeHuffman text).length < stack.length) :
    ∃ bin', hpackEncode bin cur.len load lower = some ((encodeHuffman text).length + 1, bin') ∧
      Filled stack bin' (cur.string text) (done ++ UInt8.ofNat (0x80 + (encodeHuffman text).length) ::
        storedBytes stack (cur.string text).cleared (cur.len + 1) (encodeHuffman text)) := by
  have heq := hpackEncode_eq bin cur.len load lower
  dsimp only at heq
  rw [← htext, if_pos (by rw [h.length]; exact ⟨hfit, hroom⟩), if_neg (by omega)] at heq
  have hdone : done.length = cur.len := h.written
  have hclear : cur.len + (text.length + 1) ≤ bin.length := by
    rw [h.length]
    omega
  obtain ⟨out, hout⟩ : ∃ out, out =
      (orBytes (clearedFor bin cur.len (text.length + 1)) (cur.len + 1) (encodeHuffman text)).set cur.len
        (UInt8.ofNat (0x80 + (encodeHuffman text).length)) := ⟨_, rfl⟩
  have hlen : out.length = stack.length := by
    rw [hout, List.length_set, length_orBytes, length_clearedFor bin cur.len _ hclear, h.length]
  have hself : out.getD cur.len 0 = UInt8.ofNat (0x80 + (encodeHuffman text).length) := by
    rw [hout, List.getD_eq_getElem?_getD, List.getElem?_set_self]
    · rfl
    · rw [length_orBytes, length_clearedFor bin cur.len _ hclear]
      omega
  -- what another byte is
  have hget (p : Nat) (hp : p < stack.length) (hne : p ≠ cur.len) : out.getD p 0 =
      if p < cur.len then done.getD p 0 else leftByte stack (cur.string text).cleared p |||
        (encodeHuffman text).getD (p - (cur.len + 1)) 0 := by
    rw [hout, List.getD_eq_getElem?_getD, List.getElem?_set_ne (Ne.symm hne),
      ← List.getD_eq_getElem?_getD, getD_orBytes _ _ _ _ (by
        rw [length_clearedFor bin cur.len _ hclear, h.length]; exact hp), getD_clearedFor _ _ _ _ hclear]
    by_cases hbefore : p < cur.len
    · rw [if_neg (by omega), if_neg (by omega), if_pos hbefore, ← h.taken, getD_take _ _ _ hbefore]
      exact UInt8.or_zero
    · rw [if_pos (by omega : cur.len + 1 ≤ p), if_neg hbefore]
      refine congrArg (· ||| _) ?_
      rw [h.left p (by omega), leftByte, leftByte]
      simp only [Cursor.string]
      grind
  refine ⟨out, heq.trans (by rw [hout]; rfl), hlen, ?_, ?_, ?_⟩
  · rw [List.length_append, List.length_cons, length_storedBytes, hdone]
    rfl
  · refine ext_getD ?_ ?_
    · rw [List.length_take, hlen, List.length_append, List.length_cons, length_storedBytes, hdone]
      exact Nat.min_eq_left (by simp only [Cursor.string]; omega)
    · intro p hp
      rw [List.length_take, hlen] at hp
      simp only [Cursor.string] at hp
      rw [getD_take _ _ _ (by simp only [Cursor.string]; omega), getD_append, hdone]
      by_cases hp' : p = cur.len
      · rw [hp', hself, if_neg (Nat.lt_irrefl _), Nat.sub_self]
        rfl
      · rw [hget p (by omega) hp']
        split_ifs with hbefore
        · rfl
        · obtain ⟨j, rfl⟩ : ∃ j, p = cur.len + 1 + j := ⟨p - (cur.len + 1), by omega⟩
          rw [show cur.len + 1 + j - cur.len = j + 1 by omega, List.getD_cons_succ,
            getD_storedBytes _ _ _ _ _ (by omega), Nat.add_sub_cancel_left, UInt8.or_comm]
  · intro p hp
    simp only [Cursor.string] at hp
    by_cases hin : p < stack.length
    · have hend : (encodeHuffman text).getD (p - (cur.len + 1)) 0 = 0 := by
        rw [List.getD_eq_getElem?_getD, List.getElem?_eq_none (by omega)]
        rfl
      rw [hget p hin (by omega), if_neg (by omega), hend]
      exact UInt8.or_zero
    · rw [List.getD_eq_getElem?_getD, List.getElem?_eq_none (by omega), leftByte,
        List.getD_eq_getElem?_getD, List.getElem?_eq_none (by omega)]
      split_ifs <;> rfl

/-! ### Headers that fit -/

theorem ones_or : ∀ b : Byte, 0xFF ||| b = 0xFF := byte_all _ (by decide +kernel)

/-- A code in its place is stored as it is. -/
theorem storedBytes_places {cur : Cursor} {text : List Byte} (h : cur.Places text) (stack : List Byte) :
    storedBytes stack (cur.string text).cleared (cur.len + 1) (encodeHuffman text) =
      encodeHuffman text := by
  refine ext_getD (length_storedBytes _ _ _ _) ?_
  intro j hj
  rw [length_storedBytes] at hj
  rw [getD_storedBytes _ _ _ _ _ hj, leftByte]
  split_ifs with hleft
  · exact UInt8.or_zero
  · rw [h.2.2.2 j hj (Nat.not_lt.mp hleft)]
    exact ones_or _

theorem encode_huffman (text : List Byte) (h : (encodeHuffman text).length < 127) :
    (Literal.mk true text).encode =
      UInt8.ofNat (0x80 + (encodeHuffman text).length) :: encodeHuffman text := by
  have hbody : (Literal.mk true text).body = encodeHuffman text := rfl
  have hlt : (encodeHuffman text).length < 2 ^ 7 - 1 := h
  rw [Literal.encode, hbody, encodeInt, if_pos hlt]
  rfl

theorem hpackEncode_places {stack bin done : List Byte} {cur : Cursor} (h : Filled stack bin cur done)
    (hstack : stack.length = HEADER_BIN_LEN) (load : List Byte) (lower : Bool) (text : List Byte)
    (htext : text = if lower then (cstr load).map tolower else cstr load) (hplaces : cur.Places text) :
    ∃ bin', hpackEncode bin cur.len load lower = some ((encodeHuffman text).length + 1, bin') ∧
      Filled stack bin' (cur.string text) (done ++ (Literal.mk true text).encode) := by
  obtain ⟨bin', hbin', hfilled⟩ := hpackEncode_stored h load lower text htext hplaces.1
    (hplaces.2.1.trans_eq hstack.symm) (hplaces.2.2.1.trans_eq hstack.symm)
  rw [storedBytes_places hplaces stack] at hfilled
  rw [encode_huffman text hplaces.1]
  exact ⟨bin', hbin', hfilled⟩

/-- How a header is represented. -/
def headerRep (h : MgHeader) : Rep :=
  if predefinedIndex h.name ≠ 0 then .literal .incremental (.index (predefinedIndex h.name)) ⟨true, h.value⟩
  else .literal .never (.new ⟨true, h.name.map tolower⟩) ⟨true, h.value⟩

theorem predefinedIndex_cases (name : List Byte) : predefinedIndex name = 0 ∨
    (15 ≤ predefinedIndex name ∧ predefinedIndex name ≤ 61 ∧
      mgStrcasecmp (((hpackPredefined[predefinedIndex name]?).bind Prod.fst).getD []) name = 0) := by
  unfold predefinedIndex
  cases hfind : (List.range' 15 47).find? fun j =>
      mgStrcasecmp (((hpackPredefined[j]?).bind Prod.fst).getD []) name == 0 with
  | none => exact Or.inl rfl
  | some j =>
    have hmem := List.mem_range'_1.mp (List.mem_of_find?_eq_some hfind)
    have hname := List.find?_some hfind
    exact Or.inr ⟨hmem.1, by rw [Option.getD_some]; omega, beq_iff_eq.mp hname⟩

theorem encode_known (h : MgHeader) (hpredef : predefinedIndex h.name ≠ 0) : (headerRep h).encode =
    [UInt8.ofNat (0x40 + predefinedIndex h.name)] ++ (Literal.mk true h.value).encode := by
  have hlt : predefinedIndex h.name < 2 ^ 6 - 1 := by
    rcases predefinedIndex_cases h.name with h0 | ⟨-, h61, -⟩
    · exact absurd h0 hpredef
    · omega
  rw [headerRep, if_pos hpredef, Rep.encode, Name.entry, Indexing.flags, Name.encode, List.append_nil,
    encodeInt, if_pos hlt]

theorem encode_rare (h : MgHeader) (hpredef : ¬ predefinedIndex h.name ≠ 0) : (headerRep h).encode =
    [0x10] ++ (Literal.mk true (h.name.map tolower)).encode ++ (Literal.mk true h.value).encode := by
  rw [headerRep, if_neg hpredef]
  rfl

/-- One turn of the loop writes the representation of a header that fits. -/
theorem addHeaderBytes_fits {stack bin done : List Byte} {cur : Cursor} (hbin : Filled stack bin cur done)
    (hstack : stack.length = HEADER_BIN_LEN) (h : MgHeader) (hname : NUL ∉ h.name) (hfits : cur.Fits h) :
    ∃ bin', addHeaderBytes h bin cur.len = some (bin', (cur.header h).len) ∧
      Filled stack bin' (cur.header h) (done ++ (headerRep h).encode) := by
  obtain ⟨hvalue, hroom, hplaces⟩ := hfits
  have hone : cur.len < stack.length := hroom.trans_eq hstack.symm
  have hctext : h.value = if false then (cstr h.value).map tolower else cstr h.value :=
    (cstr_of_no_nul _ hvalue).symm
  have hcname : h.name.map tolower = if true then (cstr h.name).map tolower else cstr h.name := by
    rw [cstr_of_no_nul _ hname, if_pos rfl]
  unfold addHeaderBytes
  dsimp only
  by_cases hpredef : predefinedIndex h.name ≠ 0
  · rw [if_pos hpredef] at hplaces
    obtain ⟨bin1, hput, hfilled⟩ := putByte_filled hbin (UInt8.ofNat (0x40 + predefinedIndex h.name)) hone
    obtain ⟨bin2, henc, hfilled'⟩ := hpackEncode_places hfilled hstack h.value false h.value hctext
      hplaces.2.2
    have hcur : cur.header h = (cur.bytes 1).string h.value := if_pos hpredef
    refine ⟨bin2, ?_, ?_⟩
    · rw [if_pos hpredef, hput, Option.map_some, Option.bind_some]
      dsimp only
      rw [show cur.len + 1 = (cur.bytes 1).len from rfl, henc, hcur]
      rfl
    · rw [hcur, encode_known h hpredef, ← List.append_assoc]
      exact hfilled'
  · rw [if_neg hpredef] at hplaces
    obtain ⟨bin1, hput, hfilled⟩ := putByte_filled hbin 0x10 hone
    obtain ⟨bin2, henc, hfilled'⟩ := hpackEncode_places hfilled hstack h.name true _ hcname hplaces.1
    obtain ⟨bin3, henc', hfilled''⟩ := hpackEncode_places hfilled' hstack h.value false h.value hctext
      hplaces.2
    have hcur : cur.header h = ((cur.bytes 1).string (h.name.map tolower)).string h.value :=
      if_neg hpredef
    refine ⟨bin3, ?_, ?_⟩
    · rw [if_neg hpredef, hput, Option.bind_some, show cur.len + 1 = (cur.bytes 1).len from rfl, henc,
        Option.map_some, Option.bind_some]
      dsimp only
      rw [show (cur.bytes 1).len + ((encodeHuffman (h.name.map tolower)).length + 1) =
        ((cur.bytes 1).string (h.name.map tolower)).len from rfl, henc', hcur]
      rfl
    · rw [hcur, encode_rare h hpredef, ← List.append_assoc, ← List.append_assoc]
      exact hfilled''

theorem addAllHeaders_fit {stack bin done : List Byte} {cur : Cursor} (hbin : Filled stack bin cur done)
    (hstack : stack.length = HEADER_BIN_LEN) (hs : List MgHeader) (hnames : ∀ h ∈ hs, NUL ∉ h.name)
    (hfit : HeadersFit cur hs) :
    ∃ bin', addAllHeaders hs bin cur.len = some (bin', (hs.foldl Cursor.header cur).len) ∧
      Filled stack bin' (hs.foldl Cursor.header cur) (done ++ encodeBlock (hs.map headerRep)) := by
  induction hs generalizing bin cur done with
  | nil => exact ⟨bin, rfl, by rw [List.map_nil, encodeBlock, List.flatMap_nil, List.append_nil]; exact hbin⟩
  | cons h hs ih =>
    obtain ⟨hname, hrest⟩ := List.forall_mem_cons.mp hnames
    obtain ⟨bin', hadd, hfilled⟩ := addHeaderBytes_fits hbin hstack h hname hfit.1
    obtain ⟨bin'', hall, hfilled'⟩ := ih hfilled hrest hfit.2
    refine ⟨bin'', ?_, ?_⟩
    · rw [addAllHeaders, hadd, Option.bind_some]
      exact hall
    · rw [List.map_cons, encodeBlock, List.flatMap_cons, ← List.append_assoc]
      exact hfilled'

end CivetWeb
