import CivetWeb.Lib.Bits
import CivetWeb.Http.Headers

namespace CivetWeb

/-- `hpack_predefined`, with `none` for `NULL`. -/
def hpackPredefined : List (Option (List Byte) × Option (List Byte)) :=
  [(none, none), (some ":authority", none), (some ":method", some "GET"),
   (some ":method", some "POST"), (some ":path", some "/"), (some ":path", some "/index.html"),
   (some ":scheme", some "http"), (some ":scheme", some "https"), (some ":status", some "200"),
   (some ":status", some "204"), (some ":status", some "206"), (some ":status", some "304"),
   (some ":status", some "400"), (some ":status", some "404"), (some ":status", some "500"),
   (some "accept-charset", none), (some "accept-encoding", none), (some "accept-language", none),
   (some "accept-ranges", none), (some "accept", none), (some "access-control-allow-origin", none),
   (some "age", none), (some "allow", none), (some "authorization", none),
   (some "cache-control", none), (some "content-encoding", none), (some "content-disposition", none),
   (some "content-language", none), (some "content-length", none), (some "content-location", none),
   (some "content-range", none), (some "content-type", none), (some "cookie", none),
   (some "date", none), (some "etag", none), (some "expect", none),
   (some "expires", none), (some "from", none), (some "host", none),
   (some "if-match", none), (some "if-modified-since", none), (some "if-none-match", none),
   (some "if-range", none), (some "if-unmodified-since", none), (some "last-modified", none),
   (some "link", none), (some "location", none), (some "max-forwards", none),
   (some "proxy-authenticate", none), (some "proxy-authorization", none), (some "range", none),
   (some "referer", none), (some "refresh", none), (some "retry-after", none),
   (some "server", none), (some "set-cookie", none), (some "strict-transport-security", none),
   (some "transfer-encoding", none), (some "user-agent", none), (some "vary", none),
   (some "via", none), (some "www-authenticate", none)].map
    (fun (name, value) => (name.map ascii, value.map ascii))

/-- An entry of `hpack_huff_dec`. -/
structure HuffDec where
  decoded : Byte
  bitcount : Nat
  encoded : Nat
  deriving DecidableEq, Repr

def hpackHuffDec : List HuffDec :=
  [(48, 5, 0x0), (49, 5, 0x1), (50, 5, 0x2), (97, 5, 0x3),
   (99, 5, 0x4), (101, 5, 0x5), (105, 5, 0x6), (111, 5, 0x7),
   (115, 5, 0x8), (116, 5, 0x9), (32, 6, 0x14), (37, 6, 0x15),
   (45, 6, 0x16), (46, 6, 0x17), (47, 6, 0x18), (51, 6, 0x19),
   (52, 6, 0x1a), (53, 6, 0x1b), (54, 6, 0x1c), (55, 6, 0x1d),
   (56, 6, 0x1e), (57, 6, 0x1f), (61, 6, 0x20), (65, 6, 0x21),
   (95, 6, 0x22), (98, 6, 0x23), (100, 6, 0x24), (102, 6, 0x25),
   (103, 6, 0x26), (104, 6, 0x27), (108, 6, 0x28), (109, 6, 0x29),
   (110, 6, 0x2a), (112, 6, 0x2b), (114, 6, 0x2c), (117, 6, 0x2d),
   (58, 7, 0x5c), (66, 7, 0x5d), (67, 7, 0x5e), (68, 7, 0x5f),
   (69, 7, 0x60), (70, 7, 0x61), (71, 7, 0x62), (72, 7, 0x63),
   (73, 7, 0x64), (74, 7, 0x65), (75, 7, 0x66), (76, 7, 0x67),
   (77, 7, 0x68), (78, 7, 0x69), (79, 7, 0x6a), (80, 7, 0x6b),
   (81, 7, 0x6c), (82, 7, 0x6d), (83, 7, 0x6e), (84, 7, 0x6f),
   (85, 7, 0x70), (86, 7, 0x71), (87, 7, 0x72), (89, 7, 0x73),
   (106, 7, 0x74), (107, 7, 0x75), (113, 7, 0x76), (118, 7, 0x77),
   (119, 7, 0x78), (120, 7, 0x79), (121, 7, 0x7a), (122, 7, 0x7b),
   (38, 8, 0xf8), (42, 8, 0xf9), (44, 8, 0xfa), (59, 8, 0xfb),
   (88, 8, 0xfc), (90, 8, 0xfd), (33, 10, 0x3f8), (34, 10, 0x3f9),
   (40, 10, 0x3fa), (41, 10, 0x3fb), (63, 10, 0x3fc), (39, 11, 0x7fa),
   (43, 11, 0x7fb), (124, 11, 0x7fc), (35, 12, 0xffa), (62, 12, 0xffb),
   (0, 13, 0x1ff8), (36, 13, 0x1ff9), (64, 13, 0x1ffa), (91, 13, 0x1ffb),
   (93, 13, 0x1ffc), (126, 13, 0x1ffd), (94, 14, 0x3ffc), (125, 14, 0x3ffd),
   (60, 15, 0x7ffc), (96, 15, 0x7ffd), (123, 15, 0x7ffe), (92, 19, 0x7fff0),
   (195, 19, 0x7fff1), (208, 19, 0x7fff2), (128, 20, 0xfffe6), (130, 20, 0xfffe7),
   (131, 20, 0xfffe8), (162, 20, 0xfffe9), (184, 20, 0xfffea), (194, 20, 0xfffeb),
   (224, 20, 0xfffec), (226, 20, 0xfffed), (153, 21, 0x1fffdc), (161, 21, 0x1fffdd),
   (167, 21, 0x1fffde), (172, 21, 0x1fffdf), (176, 21, 0x1fffe0), (177, 21, 0x1fffe1),
   (179, 21, 0x1fffe2), (209, 21, 0x1fffe3), (216, 21, 0x1fffe4), (217, 21, 0x1fffe5),
   (227, 21, 0x1fffe6), (229, 21, 0x1fffe7), (230, 21, 0x1fffe8), (129, 22, 0x3fffd2),
   (132, 22, 0x3fffd3), (133, 22, 0x3fffd4), (134, 22, 0x3fffd5), (136, 22, 0x3fffd6),
   (146, 22, 0x3fffd7), (154, 22, 0x3fffd8), (156, 22, 0x3fffd9), (160, 22, 0x3fffda),
   (163, 22, 0x3fffdb), (164, 22, 0x3fffdc), (169, 22, 0x3fffdd), (170, 22, 0x3fffde),
   (173, 22, 0x3fffdf), (178, 22, 0x3fffe0), (181, 22, 0x3fffe1), (185, 22, 0x3fffe2),
   (186, 22, 0x3fffe3), (187, 22, 0x3fffe4), (189, 22, 0x3fffe5), (190, 22, 0x3fffe6),
   (196, 22, 0x3fffe7), (198, 22, 0x3fffe8), (228, 22, 0x3fffe9), (232, 22, 0x3fffea),
   (233, 22, 0x3fffeb), (1, 23, 0x7fffd8), (135, 23, 0x7fffd9), (137, 23, 0x7fffda),
   (138, 23, 0x7fffdb), (139, 23, 0x7fffdc), (140, 23, 0x7fffdd), (141, 23, 0x7fffde),
   (143, 23, 0x7fffdf), (147, 23, 0x7fffe0), (149, 23, 0x7fffe1), (150, 23, 0x7fffe2),
   (151, 23, 0x7fffe3), (152, 23, 0x7fffe4), (155, 23, 0x7fffe5), (157, 23, 0x7fffe6),
   (158, 23, 0x7fffe7), (165, 23, 0x7fffe8), (166, 23, 0x7fffe9), (168, 23, 0x7fffea),
   (174, 23, 0x7fffeb), (175, 23, 0x7fffec), (180, 23, 0x7fffed), (182, 23, 0x7fffee),
   (183, 23, 0x7fffef), (188, 23, 0x7ffff0), (191, 23, 0x7ffff1), (197, 23, 0x7ffff2),
   (231, 23, 0x7ffff3), (239, 23, 0x7ffff4), (9, 24, 0xffffea), (142, 24, 0xffffeb),
   (144, 24, 0xffffec), (145, 24, 0xffffed), (148, 24, 0xffffee), (159, 24, 0xffffef),
   (171, 24, 0xfffff0), (206, 24, 0xfffff1), (215, 24, 0xfffff2), (225, 24, 0xfffff3),
   (236, 24, 0xfffff4), (237, 24, 0xfffff5), (199, 25, 0x1ffffec), (207, 25, 0x1ffffed),
   (234, 25, 0x1ffffee), (235, 25, 0x1ffffef), (192, 26, 0x3ffffe0), (193, 26, 0x3ffffe1),
   (200, 26, 0x3ffffe2), (201, 26, 0x3ffffe3), (202, 26, 0x3ffffe4), (205, 26, 0x3ffffe5),
   (210, 26, 0x3ffffe6), (213, 26, 0x3ffffe7), (218, 26, 0x3ffffe8), (219, 26, 0x3ffffe9),
   (238, 26, 0x3ffffea), (240, 26, 0x3ffffeb), (242, 26, 0x3ffffec), (243, 26, 0x3ffffed),
   (255, 26, 0x3ffffee), (203, 27, 0x7ffffde), (204, 27, 0x7ffffdf), (211, 27, 0x7ffffe0),
   (212, 27, 0x7ffffe1), (214, 27, 0x7ffffe2), (221, 27, 0x7ffffe3), (222, 27, 0x7ffffe4),
   (223, 27, 0x7ffffe5), (241, 27, 0x7ffffe6), (244, 27, 0x7ffffe7), (245, 27, 0x7ffffe8),
   (246, 27, 0x7ffffe9), (247, 27, 0x7ffffea), (248, 27, 0x7ffffeb), (250, 27, 0x7ffffec),
   (251, 27, 0x7ffffed), (252, 27, 0x7ffffee), (253, 27, 0x7ffffef), (254, 27, 0x7fffff0),
   (2, 28, 0xfffffe2), (3, 28, 0xfffffe3), (4, 28, 0xfffffe4), (5, 28, 0xfffffe5),
   (6, 28, 0xfffffe6), (7, 28, 0xfffffe7), (8, 28, 0xfffffe8), (11, 28, 0xfffffe9),
   (12, 28, 0xfffffea), (14, 28, 0xfffffeb), (15, 28, 0xfffffec), (16, 28, 0xfffffed),
   (17, 28, 0xfffffee), (18, 28, 0xfffffef), (19, 28, 0xffffff0), (20, 28, 0xffffff1),
   (21, 28, 0xffffff2), (23, 28, 0xffffff3), (24, 28, 0xffffff4), (25, 28, 0xffffff5),
   (26, 28, 0xffffff6), (27, 28, 0xffffff7), (28, 28, 0xffffff8), (29, 28, 0xffffff9),
   (30, 28, 0xffffffa), (31, 28, 0xffffffb), (127, 28, 0xffffffc), (220, 28, 0xffffffd),
   (249, 28, 0xffffffe), (10, 30, 0x3ffffffc), (13, 30, 0x3ffffffd), (22, 30, 0x3ffffffe),
   (256, 30, 0x3fffffff)].map
    (fun (decoded, bitcount, encoded) => ⟨UInt8.ofNat decoded, bitcount, encoded⟩)

/-- The highest value with 5, 6, 7, ... 30 and all bits. -/
def hpackHuffEndCode : List Nat :=
  [0x9, 0x2d, 0x7b, 0xfd, 0, 0x3fc, 0x7fc, 0xffb, 0x1ffd,
   0x3ffd, 0x7ffe, 0, 0, 0, 0x7fff2, 0xfffed, 0x1fffe8, 0x3fffeb,
   0x7ffff4, 0xfffff5, 0x1ffffef, 0x3ffffee, 0x7fffff0, 0xffffffe, 0, 0x3ffffffe, 0xFFFFFFFF]

/-- The lowest index with 5, 6, 7, ... 30 and all bits. -/
def hpackHuffStartIndex : List Nat :=
  [0, 10, 36, 68, 0, 74, 79, 82, 84, 90, 92, 0, 0, 0,
   95, 98, 106, 119, 145, 174, 186, 190, 205, 224, 0, 253, 0]

/-- `(b & 0x7F) << M` as it is added to a `uint64_t`: the shift is one of an `int`, which is taken for the
32 bit shift of the machine where the value does not fit. -/
def shiftedInt (b m : Nat) : Nat :=
  let v := b * 2 ^ (m % 32) % 2 ^ 32
  if v < 2 ^ 31 then v else v + (2 ^ 64 - 2 ^ 32)

/-- The loop of `hpack_getnum`: the number and how many bytes it has read; `none` reads behind the
buffer. -/
def hpackGetnumLoop : List Byte → Nat → Nat → Nat → Option (Nat × Nat)
  | [], _, _, _ => none
  | b :: s, num, m, used =>
    let num := (num + shiftedInt (b &&& 0x7F).toNat m) % 2 ^ 64
    if b &&& 0x80 = 0x80 then hpackGetnumLoop s num (m + 7) (used + 1) else some (num, used + 1)

/-- `hpack_getnum`: the number and the new `*i`. -/
def hpackGetnum (buf : List Byte) (i : Nat) (idxMask : Byte) : Option (Nat × Nat) :=
  match buf.drop i with
  | [] => none
  | b :: s =>
    if b &&& idxMask = idxMask then
      (hpackGetnumLoop s (b &&& idxMask).toNat 0 0).map fun (num, used) => (num, i + used + 1)
    else some ((b &&& idxMask).toNat, i + 1)

/-- The loop that collects the bits of a code: `accu`, `bc` and the bits that are left; `none` where all
bits are used. -/
def huffCollect : Nat → Nat → List Bool → Option (Nat × Nat × List Bool)
  | _, _, [] => none
  | accu, bc, bit :: bits =>
    let accu := 2 * accu + bit.toNat
    let bc := bc + 1
    if bc < 5 ∨ hpackHuffEndCode.getD (bc - 5) 0 < accu then huffCollect accu bc bits
    else some (accu, bc, bits)

/-- The matching code in the decoding table. -/
def huffFind (accu bc : Nat) : Option HuffDec :=
  ((hpackHuffDec.take 256).drop (hpackHuffStartIndex.getD (bc - 5) 0)).find? (·.encoded == accu)

/-- The size of `str` in `hpack_decode`. -/
def HUFF_STR_LEN : Nat := 2048

/-- The outer loop of the Huffman part of `hpack_decode`; `none` is a string that is too long. -/
def huffLoop : Nat → List Bool → List Byte → Option (List Byte)
  | 0, _, _ => none
  | turns + 1, bits, str =>
    match huffCollect 0 0 bits with
    | none => some (cstr str)
    | some (accu, bc, bits) =>
      let str := str ++ ((huffFind accu bc).map HuffDec.decoded).toList
      if str.length = HUFF_STR_LEN then none else huffLoop turns bits str

/-- `hpack_decode`: the C string and the new `*i`; `none` is its `NULL`. A length that is read behind the buffer is
no other case: `*i` lies behind `max_i` then, whatever stands there. -/
def hpackDecode (buf : List Byte) (i maxI : Nat) : Option (List Byte × Nat) :=
  match buf[i]?, hpackGetnum buf i 0x7F with
  | some b, some (byteLen, i) =>
    if 1024 < byteLen then none
    else if maxI < i + byteLen then none
    else
      let data := (buf.drop i).take byteLen
      if b &&& 0x80 = 0x80 then
        -- every turn takes a bit at least
        (huffLoop (8 * byteLen + 1) (Bits.ofOctets data) []).map (·, i + byteLen)
      else some (cstr data, i + byteLen)
  | _, _ => none

def HTTP2_DYN_TABLE_SIZE : Nat := 256

/-- `purge_dynamic_header_table`. -/
def purgeDynamicHeaderTable (dynTable : List MgHeader) (tableSize : Nat) : List MgHeader :=
  dynTable.take tableSize

/-- The name of a header: the string, and the new `i`. -/
def headerKey (dynTable : List MgHeader) (buf : List Byte) (bytesRead idx i : Nat) :
    Option (List Byte × Nat) :=
  if idx = 0 then hpackDecode buf i bytesRead
  else if idx ≤ 61 then ((hpackPredefined[idx]?).bind Prod.fst).map (·, i)
  else if idx - 61 ≤ dynTable.length then (dynTable[idx - 62]?).map (·.name, i)
  else none

/-- The value that goes with an index. -/
def knownValue (dynTable : List MgHeader) (idx : Nat) : Option (List Byte) :=
  if idx ≤ 61 then (hpackPredefined[idx]?).bind Prod.snd
  else if idx - 61 ≤ dynTable.length then (dynTable[idx - 62]?).map MgHeader.value
  else none

/-- A header field representation: the field, the table behind it, and the new `i`. -/
def headerField (dynTable : List MgHeader) (buf : List Byte) (bytesRead i : Nat) (idxMask : Byte)
    (valueKnown indexing : Bool) : Option (MgHeader × List MgHeader × Nat) :=
  (hpackGetnum buf i idxMask).bind fun (idx, i) =>
  (headerKey dynTable buf bytesRead idx i).bind fun (key, i) =>
  if valueKnown then (knownValue dynTable idx).map fun val => (⟨key, val⟩, dynTable, i)
  else
    (hpackDecode buf i bytesRead).bind fun (val, i) =>
    if indexing then
      if HTTP2_DYN_TABLE_SIZE ≤ dynTable.length then none
      else some (⟨key, val⟩, dynTable ++ [⟨key, val⟩], i)
    else some (⟨key, val⟩, dynTable, i)

/-- One turn of the loop over a header block: the field, unless it is a table size update, the dynamic
table, and the new `i`; `none` goes to `clean_http2`. -/
def nextHeader (dynTable : List MgHeader) (buf : List Byte) (bytesRead i : Nat) :
    Option (Option MgHeader × List MgHeader × Nat) :=
  (buf[i]?).bind fun b =>
  let field (idxMask : Byte) (valueKnown indexing : Bool) :=
    (headerField dynTable buf bytesRead i idxMask valueKnown indexing).map
      fun (h, dynTable, i) => (some h, dynTable, i)
  if b &&& 0x80 = 0x80 then field 0x7F true false
  else if b &&& 0xC0 = 0x40 then field 0x3F false true
  else if b &&& 0xF0 = 0x00 then field 0x0F false false
  else if b &&& 0xF0 = 0x10 then field 0x0F false false
  else if b &&& 0xE0 = 0x20 then
    (hpackGetnum buf i 0x1F).map fun (tableSize, i) =>
      (none, purgeDynamicHeaderTable dynTable (tableSize % 2 ^ 32), i)
  else none

end CivetWeb
