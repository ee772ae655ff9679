import CivetWeb.Lib.Bits
import Mathlib.Algebra.Ring.Nat

/-! The header compression of HTTP/2 (RFC 7541): what a decoder makes of the representations that a
header block consists of, and how an encoder writes them. -/

namespace Hpack

abbrev Octets := List UInt8

def octets (s : String) : Octets := s.toList.map (fun c => UInt8.ofNat c.toNat)

structure Field where
  name : Octets
  value : Octets
  deriving DecidableEq, Repr

/-- The static table (appendix A), from index 1 on. -/
def staticTable : List Field :=
  [(":authority", ""), (":method", "GET"), (":method", "POST"),
   (":path", "/"), (":path", "/index.html"), (":scheme", "http"),
   (":scheme", "https"), (":status", "200"), (":status", "204"),
   (":status", "206"), (":status", "304"), (":status", "400"),
   (":status", "404"), (":status", "500"), ("accept-charset", ""),
   ("accept-encoding", "gzip, deflate"), ("accept-language", ""), ("accept-ranges", ""),
   ("accept", ""), ("access-control-allow-origin", ""), ("age", ""),
   ("allow", ""), ("authorization", ""), ("cache-control", ""),
   ("content-disposition", ""), ("content-encoding", ""), ("content-language", ""),
   ("content-length", ""), ("content-location", ""), ("content-range", ""),
   ("content-type", ""), ("cookie", ""), ("date", ""),
   ("etag", ""), ("expect", ""), ("expires", ""),
   ("from", ""), ("host", ""), ("if-match", ""),
   ("if-modified-since", ""), ("if-none-match", ""), ("if-range", ""),
   ("if-unmodified-since", ""), ("last-modified", ""), ("link", ""),
   ("location", ""), ("max-forwards", ""), ("proxy-authenticate", ""),
   ("proxy-authorization", ""), ("range", ""), ("referer", ""),
   ("refresh", ""), ("retry-after", ""), ("server", ""),
   ("set-cookie", ""), ("strict-transport-security", ""), ("transfer-encoding", ""),
   ("user-agent", ""), ("vary", ""), ("via", ""),
   ("www-authenticate", "")].map (fun (name, value) => ⟨octets name, octets value⟩)

/-- The Huffman code (appendix B): the code of every octet and its length in bits. -/
def huffmanTable : List (Nat × Nat) :=
  [(0x1ff8, 13), (0x7fffd8, 23), (0xfffffe2, 28), (0xfffffe3, 28), (0xfffffe4, 28), (0xfffffe5, 28),
   (0xfffffe6, 28), (0xfffffe7, 28), (0xfffffe8, 28), (0xffffea, 24), (0x3ffffffc, 30), (0xfffffe9, 28),
   (0xfffffea, 28), (0x3ffffffd, 30), (0xfffffeb, 28), (0xfffffec, 28), (0xfffffed, 28), (0xfffffee, 28),
   (0xfffffef, 28), (0xffffff0, 28), (0xffffff1, 28), (0xffffff2, 28), (0x3ffffffe, 30), (0xffffff3, 28),
   (0xffffff4, 28), (0xffffff5, 28), (0xffffff6, 28), (0xffffff7, 28), (0xffffff8, 28), (0xffffff9, 28),
   (0xffffffa, 28), (0xffffffb, 28), (0x14, 6), (0x3f8, 10), (0x3f9, 10), (0xffa, 12),
   (0x1ff9, 13), (0x15, 6), (0xf8, 8), (0x7fa, 11), (0x3fa, 10), (0x3fb, 10),
   (0xf9, 8), (0x7fb, 11), (0xfa, 8), (0x16, 6), (0x17, 6), (0x18, 6),
   (0x0, 5), (0x1, 5), (0x2, 5), (0x19, 6), (0x1a, 6), (0x1b, 6),
   (0x1c, 6), (0x1d, 6), (0x1e, 6), (0x1f, 6), (0x5c, 7), (0xfb, 8),
   (0x7ffc, 15), (0x20, 6), (0xffb, 12), (0x3fc, 10), (0x1ffa, 13), (0x21, 6),
   (0x5d, 7), (0x5e, 7), (0x5f, 7), (0x60, 7), (0x61, 7), (0x62, 7),
   (0x63, 7), (0x64, 7), (0x65, 7), (0x66, 7), (0x67, 7), (0x68, 7),
   (0x69, 7), (0x6a, 7), (0x6b, 7), (0x6c, 7), (0x6d, 7), (0x6e, 7),
   (0x6f, 7), (0x70, 7), (0x71, 7), (0x72, 7), (0xfc, 8), (0x73, 7),
   (0xfd, 8), (0x1ffb, 13), (0x7fff0, 19), (0x1ffc, 13), (0x3ffc, 14), (0x22, 6),
   (0x7ffd, 15), (0x3, 5), (0x23, 6), (0x4, 5), (0x24, 6), (0x5, 5),
   (0x25, 6), (0x26, 6), (0x27, 6), (0x6, 5), (0x74, 7), (0x75, 7),
   (0x28, 6), (0x29, 6), (0x2a, 6), (0x7, 5), (0x2b, 6), (0x76, 7),
   (0x2c, 6), (0x8, 5), (0x9, 5), (0x2d, 6), (0x77, 7), (0x78, 7),
   (0x79, 7), (0x7a, 7), (0x7b, 7), (0x7ffe, 15), (0x7fc, 11), (0x3ffd, 14),
   (0x1ffd, 13), (0xffffffc, 28), (0xfffe6, 20), (0x3fffd2, 22), (0xfffe7, 20), (0xfffe8, 20),
   (0x3fffd3, 22), (0x3fffd4, 22), (0x3fffd5, 22), (0x7fffd9, 23), (0x3fffd6, 22), (0x7fffda, 23),
   (0x7fffdb, 23), (0x7fffdc, 23), (0x7fffdd, 23), (0x7fffde, 23), (0xffffeb, 24), (0x7fffdf, 23),
   (0xffffec, 24), (0xffffed, 24), (0x3fffd7, 22), (0x7fffe0, 23), (0xffffee, 24), (0x7fffe1, 23),
   (0x7fffe2, 23), (0x7fffe3, 23), (0x7fffe4, 23), (0x1fffdc, 21), (0x3fffd8, 22), (0x7fffe5, 23),
   (0x3fffd9, 22), (0x7fffe6, 23), (0x7fffe7, 23), (0xffffef, 24), (0x3fffda, 22), (0x1fffdd, 21),
   (0xfffe9, 20), (0x3fffdb, 22), (0x3fffdc, 22), (0x7fffe8, 23), (0x7fffe9, 23), (0x1fffde, 21),
   (0x7fffea, 23), (0x3fffdd, 22), (0x3fffde, 22), (0xfffff0, 24), (0x1fffdf, 21), (0x3fffdf, 22),
   (0x7fffeb, 23), (0x7fffec, 23), (0x1fffe0, 21), (0x1fffe1, 21), (0x3fffe0, 22), (0x1fffe2, 21),
   (0x7fffed, 23), (0x3fffe1, 22), (0x7fffee, 23), (0x7fffef, 23), (0xfffea, 20), (0x3fffe2, 22),
   (0x3fffe3, 22), (0x3fffe4, 22), (0x7ffff0, 23), (0x3fffe5, 22), (0x3fffe6, 22), (0x7ffff1, 23),
   (0x3ffffe0, 26), (0x3ffffe1, 26), (0xfffeb, 20), (0x7fff1, 19), (0x3fffe7, 22), (0x7ffff2, 23),
   (0x3fffe8, 22), (0x1ffffec, 25), (0x3ffffe2, 26), (0x3ffffe3, 26), (0x3ffffe4, 26), (0x7ffffde, 27),
   (0x7ffffdf, 27), (0x3ffffe5, 26), (0xfffff1, 24), (0x1ffffed, 25), (0x7fff2, 19), (0x1fffe3, 21),
   (0x3ffffe6, 26), (0x7ffffe0, 27), (0x7ffffe1, 27), (0x3ffffe7, 26), (0x7ffffe2, 27), (0xfffff2, 24),
   (0x1fffe4, 21), (0x1fffe5, 21), (0x3ffffe8, 26), (0x3ffffe9, 26), (0xffffffd, 28), (0x7ffffe3, 27),
   (0x7ffffe4, 27), (0x7ffffe5, 27), (0xfffec, 20), (0xfffff3, 24), (0xfffed, 20), (0x1fffe6, 21),
   (0x3fffe9, 22), (0x1fffe7, 21), (0x1fffe8, 21), (0x7ffff3, 23), (0x3fffea, 22), (0x3fffeb, 22),
   (0x1ffffee, 25), (0x1ffffef, 25), (0xfffff4, 24), (0xfffff5, 24), (0x3ffffea, 26), (0x7ffff4, 23),
   (0x3ffffeb, 26), (0x7ffffe6, 27), (0x3ffffec, 26), (0x3ffffed, 26), (0x7ffffe7, 27), (0x7ffffe8, 27),
   (0x7ffffe9, 27), (0x7ffffea, 27), (0x7ffffeb, 27), (0xffffffe, 28), (0x7ffffec, 27), (0x7ffffed, 27),
   (0x7ffffee, 27), (0x7ffffef, 27), (0x7fffff0, 27), (0x3ffffee, 26)]

/-! The dynamic table (section 4). -/

def Field.size (f : Field) : Nat := f.name.length + f.value.length + 32

def size (entries : List Field) : Nat := (entries.map Field.size).sum

theorem length_le_size (entries : List Field) : 32 * entries.length ≤ size entries := by
  induction entries with
  | nil => exact Nat.zero_le _
  | cons f entries ih =>
    simp only [size, List.map_cons, List.sum_cons, Field.size, List.length_cons] at ih ⊢
    omega

/-- The first entries, as many as fit. -/
def fit : Nat → List Field → List Field
  | _, [] => []
  | room, f :: entries => if f.size ≤ room then f :: fit (room - f.size) entries else []

theorem size_fit (room : Nat) (entries : List Field) : size (fit room entries) ≤ room := by
  induction entries generalizing room with
  | nil => exact Nat.zero_le _
  | cons f entries ih =>
    rw [fit]
    split_ifs with h
    · have hrest := ih (room - f.size)
      simp only [size, List.map_cons, List.sum_cons] at hrest ⊢
      omega
    · exact Nat.zero_le _

/-- The entries with the newest first; they never take more than the size of the table. -/
structure Table where
  entries : List Field
  maxSize : Nat
  fits : size entries ≤ maxSize

def Table.empty (maxSize : Nat) : Table := ⟨[], maxSize, Nat.zero_le _⟩

/-- Adds an entry; the oldest ones are evicted until it fits, or all of them if it never does. -/
def Table.insert (t : Table) (f : Field) : Table :=
  ⟨fit t.maxSize (f :: t.entries), t.maxSize, size_fit _ _⟩

def Table.resize (t : Table) (maxSize : Nat) : Table :=
  ⟨fit maxSize t.entries, maxSize, size_fit _ _⟩

/-- The entry at an index of the whole table (section 2.3.3). -/
def Table.field? (t : Table) (i : Nat) : Option Field :=
  if i = 0 then none else if i ≤ 61 then staticTable[i - 1]? else t.entries[i - 62]?

theorem Table.field?_lt (t : Table) (i : Nat) (f : Field) (h : t.field? i = some f) :
    i ≠ 0 ∧ 32 * i ≤ 32 * 61 + t.maxSize := by
  have hlen := length_le_size t.entries
  have hfits := t.fits
  unfold Table.field? at h
  split_ifs at h with h0 h61
  · exact ⟨h0, by omega⟩
  · obtain ⟨hlt, -⟩ := List.getElem?_eq_some_iff.mp h
    exact ⟨h0, by omega⟩

/-! The representations (section 6). -/

/-- A string literal, and whether it is Huffman encoded. -/
structure Literal where
  huffman : Bool
  text : Octets
  deriving DecidableEq, Repr

inductive Indexing where
  | incremental
  | without
  | never
  deriving DecidableEq, Repr

/-- A name by the index of an entry that has it, or in full. -/
inductive Name where
  | index (i : Nat)
  | new (text : Literal)
  deriving DecidableEq, Repr

inductive Rep where
  | indexed (i : Nat)
  | literal (indexing : Indexing) (name : Name) (value : Literal)
  | resize (maxSize : Nat)
  deriving DecidableEq, Repr

def Table.name? (t : Table) : Name → Option Octets
  | .index i => (t.field? i).map Field.name
  | .new text => some text.text

/-- What a representation adds to the header list, and the table behind it; `none` is a decoding
error. The size of the table may be set up to `limit`. -/
def Table.decode (limit : Nat) (t : Table) : Rep → Option (Option Field × Table)
  | .indexed i => (t.field? i).map (fun f => (some f, t))
  | .literal indexing name value => (t.name? name).map (fun n =>
      (some ⟨n, value.text⟩, if indexing = .incremental then t.insert ⟨n, value.text⟩ else t))
  | .resize maxSize => if maxSize ≤ limit then some (none, t.resize maxSize) else none

/-- The header list of a block. -/
def Table.decodeBlock (limit : Nat) : Table → List Rep → Option (List Field × Table)
  | t, [] => some ([], t)
  | t, r :: reps => (t.decode limit r).bind fun (f, t) =>
      (t.decodeBlock limit reps).map fun (fields, t) => (f.toList ++ fields, t)

/-- The header lists of the blocks of a connection, which share one table. -/
def Table.decodeBlocks (limit : Nat) : Table → List (List Rep) → Option (List (List Field))
  | _, [] => some []
  | t, reps :: blocks => (t.decodeBlock limit reps).bind fun (fields, t) =>
      (t.decodeBlocks limit blocks).map (fields :: ·)

theorem Table.decode_maxSize (limit : Nat) (t t' : Table) (r : Rep) (f : Option Field)
    (hmax : t.maxSize ≤ limit) (h : t.decode limit r = some (f, t')) : t'.maxSize ≤ limit := by
  cases r with
  | indexed i =>
    obtain ⟨g, -, h⟩ := Option.map_eq_some_iff.mp h
    rw [← (Prod.mk.inj h).2]
    exact hmax
  | literal indexing name value =>
    obtain ⟨n, -, h⟩ := Option.map_eq_some_iff.mp h
    rw [← (Prod.mk.inj h).2]
    split_ifs
    · exact hmax
    · exact hmax
  | resize s =>
    rw [Table.decode] at h
    split_ifs at h with hs
    rw [← (Prod.mk.inj (Option.some.inj h)).2]
    exact hs

theorem Table.decodeBlock_cons (limit : Nat) (t t'' : Table) (r : Rep) (reps : List Rep)
    (fields : List Field) (h : t.decodeBlock limit (r :: reps) = some (fields, t'')) : ∃ f t' rest,
    t.decode limit r = some (f, t') ∧ t'.decodeBlock limit reps = some (rest, t'') ∧
      fields = f.toList ++ rest := by
  obtain ⟨⟨f, t'⟩, hr, h⟩ := Option.bind_eq_some_iff.mp h
  obtain ⟨⟨rest, u⟩, hreps, h⟩ := Option.map_eq_some_iff.mp h
  obtain ⟨rfl, rfl⟩ := Prod.mk.inj h
  exact ⟨f, t', rest, hr, hreps, rfl⟩

theorem Table.decodeBlocks_cons (limit : Nat) (t : Table) (reps : List Rep) (blocks : List (List Rep))
    (lists : List (List Field)) (h : t.decodeBlocks limit (reps :: blocks) = some lists) :
    ∃ fields t' rest, t.decodeBlock limit reps = some (fields, t') ∧
      t'.decodeBlocks limit blocks = some rest ∧ lists = fields :: rest := by
  obtain ⟨⟨fields, t'⟩, hreps, h⟩ := Option.bind_eq_some_iff.mp h
  obtain ⟨rest, hrest, rfl⟩ := Option.map_eq_some_iff.mp h
  exact ⟨fields, t', rest, hreps, hrest, rfl⟩

/-! The octets of a representation (section 5). -/

/-- An integer behind its prefix, seven bits an octet, the lowest ones first. -/
def encodeRest : Nat → Nat → Octets
  | 0, _ => []
  | turns + 1, n =>
    if n < 128 then [UInt8.ofNat n] else UInt8.ofNat (128 + n % 128) :: encodeRest turns (n / 128)

/-- An integer in the low `bits` bits of an octet with the given flags, and behind it what they do not
hold. -/
def encodeInt (flags bits n : Nat) : Octets :=
  if n < 2 ^ bits - 1 then [UInt8.ofNat (flags + n)]
  else UInt8.ofNat (flags + (2 ^ bits - 1)) :: encodeRest (n + 1) (n - (2 ^ bits - 1))

def huffmanCode (b : UInt8) : List Bool :=
  let code := huffmanTable.getD b.toNat (0, 0)
  Bits.ofNat code.2 code.1

def encodeHuffman (text : Octets) : Octets := Bits.pack (text.flatMap huffmanCode)

example : encodeHuffman (octets "www.example.com") =
    [0xf1, 0xe3, 0xc2, 0xe5, 0xf2, 0x3a, 0x6b, 0xa0, 0xab, 0x90, 0xf4, 0xff] := by
  decide +kernel

/-- The octets of a literal without their length. -/
def Literal.body (s : Literal) : Octets := if s.huffman then encodeHuffman s.text else s.text

def Literal.encode (s : Literal) : Octets :=
  encodeInt (if s.huffman then 0x80 else 0) 7 s.body.length ++ s.body

/-- The flags of a literal field, and how many bits its index has. -/
def Indexing.flags : Indexing → Nat × Nat
  | .incremental => (0x40, 6)
  | .without => (0, 4)
  | .never => (0x10, 4)

/-- The index that stands for a name, 0 for a name in full. -/
def Name.entry : Name → Nat
  | .index i => i
  | .new _ => 0

def Name.encode : Name → Octets
  | .index _ => []
  | .new text => text.encode

def Rep.encode : Rep → Octets
  | .indexed i => encodeInt 0x80 7 i
  | .literal indexing name value =>
    encodeInt indexing.flags.1 indexing.flags.2 name.entry ++ name.encode ++ value.encode
  | .resize maxSize => encodeInt 0x20 5 maxSize

/-- The string literals of a representation. -/
def Rep.literals : Rep → List Literal
  | .literal _ (.new name) value => [name, value]
  | .literal _ (.index _) value => [value]
  | _ => []

def encodeBlock (reps : List Rep) : Octets := reps.flatMap Rep.encode

end Hpack
