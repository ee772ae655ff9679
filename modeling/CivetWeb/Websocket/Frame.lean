import CivetWeb.Conn.Write

namespace CivetWeb

def MG_WEBSOCKET_OPCODE_CONNECTION_CLOSE : Byte := 0x8
def MG_WEBSOCKET_OPCODE_PING : Byte := 0x9
def MG_WEBSOCKET_OPCODE_PONG : Byte := 0xa

/-- The bytes of a `uint16_t` in network order, as `htons` puts them into memory. -/
def htons (n : Nat) : List Byte := [UInt8.ofNat (n / 2 ^ 8), UInt8.ofNat n]

/-- The bytes of a `uint32_t` in network order, as `htonl` puts them into memory. -/
def htonl (n : Nat) : List Byte :=
  [UInt8.ofNat (n / 2 ^ 24), UInt8.ofNat (n / 2 ^ 16), UInt8.ofNat (n / 2 ^ 8), UInt8.ofNat n]

/-- The value of bytes in network order. -/
def ntoh (bytes : List Byte) : Nat := Numeral.value 256 UInt8.toNat bytes

/-- The bytes of a `uint32_t` in memory, the low one first. -/
def wordBytes (w : UInt32) : List Byte :=
  [w.toUInt8, (w >>> 8).toUInt8, (w >>> 16).toUInt8, (w >>> 24).toUInt8]

/-- The `uint32_t` that four bytes in memory make up. -/
def wordAt (a b c d : Byte) : UInt32 :=
  a.toUInt32 ||| b.toUInt32 <<< 8 ||| c.toUInt32 <<< 16 ||| d.toUInt32 <<< 24

/-- The bytes from the place `i` on, each with the byte `i % 4` of the mask on it. -/
def maskFrom (mask : List Byte) : Nat → List Byte → List Byte
  | _, [] => []
  | i, c :: data => (c ^^^ mask.getD (i % 4) 0) :: maskFrom mask (i + 1) data

/-- The loop of `mask_data` over 32 bit words, and what is left behind the last one. -/
def maskWords (maskingKey : UInt32) : List Byte → List Byte
  | a :: b :: c :: d :: data => wordBytes (wordAt a b c d ^^^ maskingKey) ++ maskWords maskingKey data
  | rest => maskFrom (wordBytes maskingKey) 0 rest

/-- `mask_data`; `aligned` says that the data is 4 byte aligned. -/
def maskData (aligned : Bool) (data : List Byte) (maskingKey : UInt32) : List Byte :=
  if 3 < data.length ∧ aligned then maskWords maskingKey data
  else maskFrom (wordBytes maskingKey) 0 data

/-- The header that `mg_websocket_write_exec` writes. -/
def websocketHeader (opcode : Int) (dataLen : Nat) (maskingKey : UInt32) : List Byte :=
  let first := 0x80 ||| UInt8.ofNat (opcode % 16).toNat
  let flag : Byte := if maskingKey ≠ 0 then 0x80 else 0
  let header :=
    if dataLen < 126 then [first, UInt8.ofNat dataLen ||| flag]
    else if dataLen ≤ 0xFFFF then first :: (126 ||| flag) :: htons dataLen
    else first :: (127 ||| flag) :: (htonl (dataLen / 2 ^ 32) ++ htonl (dataLen % 2 ^ 32))
  header ++ if maskingKey ≠ 0 then wordBytes maskingKey else []

def mgWebsocketWriteExec (out : Output) (opcode : Int) (data : List Byte) (maskingKey : UInt32) :
    Int × Output :=
  let header := websocketHeader opcode data.length maskingKey
  let (retval, out) := mgWrite out header
  if retval ≠ header.length then (-1, out)
  else if 0 < data.length then mgWrite out data
  else (retval, out)

def mgWebsocketWrite (out : Output) (opcode : Int) (data : List Byte) : Int × Output :=
  mgWebsocketWriteExec out opcode data 0

/-- `mg_websocket_client_write` with the masking key that it comes to, where the buffer for the masked
data is there. -/
def mgWebsocketClientWrite (allocated aligned : Bool) (maskingKey : UInt32) (out : Output) (opcode : Int)
    (data : List Byte) : Int × Output :=
  if !allocated then (-1, out)
  else mgWebsocketWriteExec out opcode (maskData aligned data maskingKey) maskingKey

/-! ### The header of a frame as it is read -/

/-- What the bytes at the front of the queue say of the next frame: `header_len` is still 0, or the data
is too long, or its length is known. -/
inductive FrameHead where
  | incomplete
  | tooLong
  | head (headerLen maskLen dataLen : Nat)
  deriving DecidableEq, Repr

def frameHead (buf : List Byte) : FrameHead :=
  if buf.length < 2 then .incomplete
  else
    let len := (buf.getD 1 0 &&& 127).toNat
    let maskLen := if buf.getD 1 0 &&& 128 ≠ 0 then 4 else 0
    if len < 126 ∧ maskLen ≤ buf.length then .head (2 + maskLen) maskLen len
    else if len = 126 ∧ 4 + maskLen ≤ buf.length then
      .head (4 + maskLen) maskLen (ntoh ((buf.drop 2).take 2))
    else if 10 + maskLen ≤ buf.length then
      let dataLen := ntoh ((buf.drop 2).take 4) * 2 ^ 32 + ntoh ((buf.drop 6).take 4)
      if 0x7FFF0000 < dataLen then .tooLong else .head (10 + maskLen) maskLen dataLen
    else .incomplete

/-! ### The mask -/

/-- The bytes of a word are those that make it up. -/
theorem wordBytes_wordAt (a b c d : Byte) : wordBytes (wordAt a b c d) = [a, b, c, d] := by
  have hbyte (x y : Byte) (h : ∀ i < 8, x.toBitVec.getLsbD i = y.toBitVec.getLsbD i) : x = y :=
    UInt8.toBitVec_inj.mp (BitVec.eq_of_getLsbD_eq h)
  simp only [wordBytes, List.cons.injEq, and_true]
  refine ⟨?_, ?_, ?_, ?_⟩
  all_goals
    apply hbyte
    intro i hi
    interval_cases i <;> simp [wordAt]

/-- A mask on a word is a mask on each of its bytes. -/
theorem wordBytes_xor (a b c d : Byte) (key : UInt32) :
    wordBytes (wordAt a b c d ^^^ key) =
      [a ^^^ key.toUInt8, b ^^^ (key >>> 8).toUInt8, c ^^^ (key >>> 16).toUInt8,
        d ^^^ (key >>> 24).toUInt8] := by
  have hbytes := wordBytes_wordAt a b c d
  simp only [wordBytes, List.cons.injEq, and_true] at hbytes
  obtain ⟨h0, h1, h2, h3⟩ := hbytes
  simp only [wordBytes, UInt32.shiftRight_xor, UInt32.toUInt8_xor, h0, h1, h2, h3]

theorem maskFrom_add_four (mask : List Byte) (i : Nat) (data : List Byte) :
    maskFrom mask (i + 4) data = maskFrom mask i data := by
  induction data generalizing i with
  | nil => rfl
  | cons c data ih =>
    have hi : i + 4 + 1 = i + 1 + 4 := by omega
    rw [maskFrom, maskFrom, Nat.add_mod_right, hi, ih]

/-- Whole words are masked like single bytes. -/
theorem maskWords_eq (key : UInt32) (data : List Byte) :
    maskWords key data = maskFrom (wordBytes key) 0 data := by
  induction data using maskWords.induct with
  | case1 a b c d data ih =>
    rw [maskWords, ih, wordBytes_xor, ← maskFrom_add_four (wordBytes key) 0 data]
    rfl
  | case2 rest h => rw [maskWords.eq_2 key rest h]

theorem maskData_eq (aligned : Bool) (data : List Byte) (key : UInt32) :
    maskData aligned data key = maskFrom (wordBytes key) 0 data := by
  unfold maskData
  split_ifs
  · exact maskWords_eq key data
  · rfl

theorem maskFrom_length (mask : List Byte) (i : Nat) (data : List Byte) :
    (maskFrom mask i data).length = data.length := by
  induction data generalizing i with
  | nil => rfl
  | cons c data ih => rw [maskFrom, List.length_cons, List.length_cons, ih]

/-- A mask put on twice is taken off. -/
theorem maskFrom_twice (mask : List Byte) (i : Nat) (data : List Byte) :
    maskFrom mask i (maskFrom mask i data) = data := by
  induction data generalizing i with
  | nil => rfl
  | cons c data ih =>
    rw [maskFrom, maskFrom, ih, UInt8.xor_assoc, UInt8.xor_self, UInt8.xor_zero]

/-! ### Lengths in network order -/

theorem ntoh_htons (n : Nat) (h : n < 2 ^ 16) : ntoh (htons n) = n := by
  simp only [ntoh, htons, Numeral.value, List.foldl_cons, List.foldl_nil, UInt8.toNat_ofNat']
  omega

theorem ntoh_htonl (n : Nat) (h : n < 2 ^ 32) : ntoh (htonl n) = n := by
  simp only [ntoh, htonl, Numeral.value, List.foldl_cons, List.foldl_nil, UInt8.toNat_ofNat']
  omega

/-! ### Headers read back -/

/-- The masking key in a header, if there is one. -/
def keyBytes (key : UInt32) : List Byte := if key ≠ 0 then wordBytes key else []

def maskLenOf (key : UInt32) : Nat := if key ≠ 0 then 4 else 0

theorem keyBytes_length (key : UInt32) : (keyBytes key).length = maskLenOf key := by
  unfold keyBytes maskLenOf
  split_ifs <;> rfl

/-- How the length of the data is written: the seven bits of the second byte, and the bytes behind it. -/
inductive LengthField (n : Nat) : Nat → List Byte → Prop where
  | inline : n < 126 → LengthField n n []
  | short : 126 ≤ n → n ≤ 0xFFFF → LengthField n 126 (htons n)
  | long : 0xFFFF < n → LengthField n 127 (htonl (n / 2 ^ 32) ++ htonl (n % 2 ^ 32))

theorem second_byte (len : Nat) (hlen : len < 128) (key : UInt32) :
    ((UInt8.ofNat len ||| (if key ≠ 0 then 0x80 else 0)) &&& 127).toNat = len ∧
    ((UInt8.ofNat len ||| (if key ≠ 0 then 0x80 else 0)) &&& 128 ≠ 0 ↔ key ≠ 0) := by
  have hall : ∀ n < 128, ((UInt8.ofNat n ||| 0x80) &&& 127).toNat = n ∧
      (UInt8.ofNat n ||| 0x80) &&& 128 ≠ 0 ∧ ((UInt8.ofNat n ||| 0) &&& 127).toNat = n ∧
      (UInt8.ofNat n ||| 0) &&& 128 = 0 := by decide +kernel
  obtain ⟨h1, h2, h3, h4⟩ := hall len hlen
  by_cases hkey : key = 0
  · simp only [hkey, ne_eq, not_true_eq_false, if_false]
    exact ⟨h3, fun h => h h4, fun h => h.elim⟩
  · simp only [hkey, ne_eq, not_false_eq_true, if_true]
    exact ⟨h1, fun _ => trivial, fun _ => h2⟩

theorem websocketHeader_shape (opcode : Int) (n : Nat) (key : UInt32) :
    ∃ second len lenBytes, websocketHeader opcode n key =
        (0x80 ||| UInt8.ofNat (opcode % 16).toNat) :: second :: (lenBytes ++ keyBytes key) ∧
      (second &&& 127).toNat = len ∧ (second &&& 128 ≠ 0 ↔ key ≠ 0) ∧ LengthField n len lenBytes := by
  unfold websocketHeader
  dsimp only
  by_cases h1 : n < 126
  · obtain ⟨hlen, hflag⟩ := second_byte n (by omega) key
    rw [if_pos h1]
    exact ⟨_, _, [], rfl, hlen, hflag, LengthField.inline h1⟩
  rw [if_neg h1]
  by_cases h2 : n ≤ 0xFFFF
  · obtain ⟨hlen, hflag⟩ := second_byte 126 (by omega) key
    rw [if_pos h2]
    exact ⟨_, _, htons n, rfl, hlen, hflag, LengthField.short (by omega) h2⟩
  · obtain ⟨hlen, hflag⟩ := second_byte 127 (by omega) key
    rw [if_neg h2]
    exact ⟨_, _, _, rfl, hlen, hflag, LengthField.long (by omega)⟩

/-- The front of a frame says how long its header and its data are, or that more has to be read. -/
theorem frameHead_front (opcode : Int) (n : Nat) (key : UInt32) (hn : n ≤ 0x7FFF0000)
    (q rest : List Byte) (hq : q <+: websocketHeader opcode n key ++ rest) :
    if (websocketHeader opcode n key).length ≤ q.length then
      frameHead q = .head (websocketHeader opcode n key).length (maskLenOf key) n
    else frameHead q = .incomplete ∨ ∃ h m k, frameHead q = .head h m k ∧ q.length < h := by
  obtain ⟨second, len, lenBytes, hheader, hlen, hflag, hfield⟩ := websocketHeader_shape opcode n key
  obtain ⟨header, hhd⟩ : ∃ header, header = websocketHeader opcode n key := ⟨_, rfl⟩
  rw [← hhd] at hq hheader ⊢
  have hhlen : header.length = 2 + lenBytes.length + maskLenOf key := by
    rw [hheader, ← keyBytes_length]
    simp only [List.length_cons, List.length_append]
    omega
  have hmask : maskLenOf key ≤ 4 := by
    unfold maskLenOf
    split_ifs <;> omega
  by_cases hshort : q.length < 2
  · rw [if_neg (by omega)]
    left
    unfold frameHead
    rw [if_pos hshort]
  -- the second byte has been read
  obtain ⟨y, hy⟩ : ∃ y, q = (0x80 ||| UInt8.ofNat (opcode % 16).toNat) :: second :: y := by
    obtain ⟨z, hz⟩ := hq
    obtain ⟨y, hy, -⟩ := Scan.prefix_cut [0x80 ||| UInt8.ofNat (opcode % 16).toNat, second]
      (lenBytes ++ keyBytes key ++ rest) q z (by rw [hz, hheader]; simp) (by simp; omega)
    exact ⟨y, hy⟩
  have hget : q.getD 1 0 = second := by rw [hy]; rfl
  have hmasklen : (if q.getD 1 0 &&& 128 ≠ 0 then 4 else 0) = maskLenOf key := by
    rw [hget]
    unfold maskLenOf
    by_cases hkey : key ≠ 0
    · rw [if_pos hkey, if_pos (hflag.mpr hkey)]
    · rw [if_neg hkey, if_neg (fun h => hkey (hflag.mp h))]
  have hlenq : (q.getD 1 0 &&& 127).toNat = len := by rw [hget, hlen]
  -- the length bytes, where the header is there as a whole
  have hbytes : header.length ≤ q.length → lenBytes <+: q.drop 2 := by
    intro hle
    obtain ⟨z, hz⟩ := hq
    obtain ⟨w, hw, -⟩ := Scan.prefix_cut header rest q z hz.symm hle
    rw [hw, hheader]
    exact ⟨keyBytes key ++ w, by simp⟩
  unfold frameHead
  rw [if_neg hshort]
  dsimp only
  rw [hmasklen, hlenq]
  cases hfield with
  | inline h =>
    rw [List.length_nil, Nat.add_zero] at hhlen
    by_cases hle : header.length ≤ q.length
    · rw [if_pos hle, if_pos ⟨h, by omega⟩, hhlen]
    · rw [if_neg hle]
      by_cases hm : maskLenOf key ≤ q.length
      · right
        rw [if_pos ⟨h, hm⟩]
        exact ⟨_, _, _, rfl, by omega⟩
      · left
        rw [if_neg (by omega), if_neg (by omega), if_neg (by omega)]
  | short h1 h2 =>
    have hlb : (htons n).length = 2 := rfl
    rw [hlb] at hhlen
    by_cases hle : header.length ≤ q.length
    · have htake : (q.drop 2).take 2 = htons n := (List.prefix_iff_eq_take.mp (hbytes hle)).symm
      rw [if_pos hle, if_neg (by omega), if_pos ⟨rfl, by omega⟩, htake, ntoh_htons n (by omega), hhlen]
    · rw [if_neg hle]
      left
      rw [if_neg (by omega), if_neg (by omega), if_neg (by omega)]
  | long h =>
    have hlb : (htonl (n / 2 ^ 32) ++ htonl (n % 2 ^ 32)).length = 8 := rfl
    rw [hlb] at hhlen
    by_cases hle : header.length ≤ q.length
    · obtain ⟨w, hw⟩ := hbytes hle
      have hhigh : (q.drop 2).take 4 = htonl (n / 2 ^ 32) := by
        rw [← hw]
        rfl
      have hlow : (q.drop 6).take 4 = htonl (n % 2 ^ 32) := by
        have hdrop : q.drop 6 = (q.drop 2).drop 4 := by rw [List.drop_drop]
        rw [hdrop, ← hw]
        rfl
      rw [if_pos hle, if_neg (by omega), if_neg (by omega), if_pos (by omega), hhigh, hlow,
        ntoh_htonl _ (by omega), ntoh_htonl _ (by omega), Nat.div_add_mod' n (2 ^ 32),
        if_neg (by omega), hhlen]
    · rw [if_neg hle]
      left
      rw [if_neg (by omega), if_neg (by omega), if_neg (by omega)]

end CivetWeb
