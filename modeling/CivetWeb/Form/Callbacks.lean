import CivetWeb.Form.DotSegments
import CivetWeb.Form.UrlDecode

namespace CivetWeb

def MG_FORM_FIELD_STORAGE_SKIP : UInt32 := 0x0
def MG_FORM_FIELD_STORAGE_GET : UInt32 := 0x1
def MG_FORM_FIELD_STORAGE_STORE : UInt32 := 0x2
def MG_FORM_FIELD_STORAGE_ABORT : UInt32 := 0x10
def MG_FORM_FIELD_HANDLE_NEXT : UInt32 := 0x8
def MG_FORM_FIELD_HANDLE_ABORT : UInt32 := 0x10

/-- What `mg_handle_form_request` calls: `mg_read`, the callbacks of a `mg_form_data_handler`,
the file functions and the allocator, over a world of their own. An `int` answer is
given by its 32 bits. The value of `fieldGet` is what stands in memory from the pointer on, as far
as it was filled in. -/
structure FormHandler (W : Type) where
  mgRead : (len : Nat) → W → Option {bs : List Byte // bs.length ≤ len} × W
  fieldFound : (key filename : List Byte) → W → (UInt32 × List Byte) × W
  fieldGet : (key value : List Byte) → (valuelen : Nat) → W → UInt32 × W
  fieldStore : (path : List Byte) → (fileSize : Int) → W → UInt32 × W
  hasGet : Bool
  hasStore : Bool
  mgMalloc : (size : Nat) → W → Bool × W
  mgFopen : (path : List Byte) → W → Bool × W
  fwrite : (data : List Byte) → (len : Nat) → W → (Nat × Bool) × W
  mgFclose : W → Int × W
  removeBadFile : (path : List Byte) → W → W

/-- What happened in a run, for the statements about it. `use` is a length handed to `field_get`
or `fwrite` for part data: the offset of `hend`, `towrite`, and `buf_fill`; `fill` is a value that `buf_fill`
was set to. -/
inductive FormEvent where
  | found (key filename : List Byte)
  | get (key value : List Byte) (valuelen : Nat)
  | use (hend towrite bufFill : Nat)
  | fill (bufFill : Nat)
  deriving DecidableEq, Repr

/-- The locals of `mg_handle_form_request` that outlive a turn. `buf` is the part of the
buffer that is filled, so its length is `buf_fill`; a NUL stands behind it. -/
structure FormState (W : Type) where
  world : W
  buf : List Byte
  allDataRead : Bool
  fieldCount : Nat
  path : List Byte
  fpOpen : Bool
  fileSize : Int
  events : List FormEvent

def formInit {W : Type} (w : W) : FormState W := ⟨w, [], false, 0, [], false, 0, []⟩

section
variable {W : Type} (env : FormHandler W)

def storageAborts (storage : UInt32) : Bool :=
  storage &&& MG_FORM_FIELD_STORAGE_ABORT == MG_FORM_FIELD_STORAGE_ABORT

/-- The call of `field_found` in `url_encoded_field_found`, and the checks behind it. -/
def callFieldFound (keyDec filenameDec : List Byte) (s : FormState W) : UInt32 × FormState W :=
  let ((ret, path), w) := env.fieldFound keyDec filenameDec s.world
  let s := { s with world := w, path := path, events := s.events ++ [.found keyDec filenameDec] }
  if ret &&& 0xF = MG_FORM_FIELD_STORAGE_GET ∧ !env.hasGet then (MG_FORM_FIELD_STORAGE_SKIP, s)
  else if ret &&& 0xF = MG_FORM_FIELD_STORAGE_STORE ∧ !env.hasStore then
    (MG_FORM_FIELD_STORAGE_SKIP, s)
  else (ret, s)

/-- A key or a file name, decoded to the 1024 bytes that there are for it. -/
def decodeKey (key : List Byte) : Option (List Byte) := mgUrlDecodeInt key (sizeToInt key.length) 1024 true

theorem decodeKey_eq (key : List Byte) : decodeKey key = mgUrlDecode (key.take (intLength key.length)) 1024 true := by
  have hroom : urlDecodeRoom 1024 = 1023 := by decide
  rw [decodeKey, mgUrlDecodeInt, hroom]
  rfl

theorem decodeKey_of_lt {key : List Byte} (h : key.length < 2 ^ 31) : decodeKey key = mgUrlDecode key 1024 true := by
  rw [decodeKey_eq, intLength_of_lt h, List.take_length]

theorem decodeKey_nil : decodeKey [] = some [] := by
  rw [decodeKey_eq, List.take_nil, mgUrlDecode_nil]

theorem decodeKey_literal {key : List Byte} (hkey : ∀ c ∈ key, literalByte c = true) (hlen : key.length < 1024) :
    decodeKey key = some key := by
  rw [decodeKey_of_lt (by omega), mgUrlDecode_literal key 1024 true hkey hlen]

/-- `url_encoded_field_found`. -/
def urlEncodedFieldFound (key : List Byte) (filename : Option (List Byte)) (s : FormState W) :
    UInt32 × FormState W :=
  match decodeKey key with
  | none => (MG_FORM_FIELD_STORAGE_ABORT, s)
  | some keyDec =>
    match filename with
    | none => callFieldFound env (cstr keyDec) [] s
    | some filename =>
      match decodeKey filename with
      | none => (MG_FORM_FIELD_STORAGE_ABORT, s)
      | some filenameDec =>
        callFieldFound env (cstr keyDec) (removeDotSegments (cstr filenameDec)) s

def callFieldGet (keyDec value : List Byte) (valueLen : Nat) (s : FormState W) :
    UInt32 × FormState W :=
  let (ret, w) := env.fieldGet (cstr keyDec) value valueLen s.world
  (ret, { s with world := w, events := s.events ++ [.get (cstr keyDec) value valueLen] })

/-- How much of a value of `n` bytes is processed: an escape that its end cuts short is left. -/
def trimValue (value : List Byte) (n : Nat) : Nat :=
  if 2 ≤ n ∧ value.getD (n - 2) NUL = PERCENT then n - 2
  else if 1 ≤ n ∧ value.getD (n - 1) NUL = PERCENT then n - 1
  else n

/-- `url_encoded_field_get`; the first result is its answer, the second the new `*value_len`. -/
def urlEncodedFieldGet (key value : List Byte) (valueLen : Nat) (s : FormState W) :
    (UInt32 × Nat) × FormState W :=
  let (allocated, w) := env.mgMalloc (valueLen + 1) s.world
  let s := { s with world := w }
  if !allocated then ((MG_FORM_FIELD_STORAGE_ABORT, valueLen), s)
  else
    let valueLen := trimValue value valueLen
    match decodeKey key, mgUrlDecodeInt value (sizeToInt valueLen) (sizeToInt valueLen + 1) true with
    | some keyDec, some valueDec =>
      let (ret, s) := callFieldGet env keyDec valueDec valueDec.length s
      ((ret, valueLen), s)
    | _, _ => ((MG_FORM_FIELD_STORAGE_ABORT, valueLen), s)

/-- `unencoded_field_get`. -/
def unencodedFieldGet (key value : List Byte) (valueLen : Nat) (s : FormState W) :
    UInt32 × FormState W :=
  match decodeKey key with
  | none => (MG_FORM_FIELD_STORAGE_ABORT, s)
  | some keyDec => callFieldGet env keyDec value valueLen s

/-- Opens the file that a field is stored in. -/
def openStore (s : FormState W) : FormState W :=
  let (opened, w) := env.mgFopen s.path s.world
  { s with world := w, fpOpen := opened, fileSize := 0 }

/-- `mg_fclose` and `remove_bad_file`. -/
def dropStore (s : FormState W) : FormState W :=
  let (_, w) := env.mgFclose s.world
  { s with world := env.removeBadFile s.path w, fpOpen := false }

/-- Writes `n` bytes from the pointer to the file, if one is open. -/
def writeStore (data : List Byte) (n : Nat) (s : FormState W) : FormState W :=
  if s.fpOpen then
    let ((written, failed), w) := env.fwrite data n s.world
    let s := { s with world := w }
    let s := if written ≠ n ∨ failed then dropStore env s else s
    { s with fileSize := s.fileSize + written }
  else s

/-- Closes the file; the answer says whether `field_store` stops the request. -/
def closeStore (s : FormState W) : Bool × FormState W :=
  let (r, w) := env.mgFclose s.world
  let s := { s with world := w, fpOpen := false }
  if r = 0 then
    let (r, w) := env.fieldStore s.path s.fileSize s.world
    (r = MG_FORM_FIELD_HANDLE_ABORT, { s with world := w })
  else (false, { s with world := env.removeBadFile s.path s.world })

/-- Reads as much as the buffer has room for; the answer is false for a read error. -/
def fillBuf (s : FormState W) : Bool × FormState W :=
  match env.mgRead (MG_BUF_LEN - 1 - s.buf.length) s.world with
  | (none, w) => (false, { s with world := w })
  | (some r, w) =>
    if r.val = [] ∧ s.allDataRead then (false, { s with world := w })
    else
      let s := { s with
        world := w
        allDataRead := if r.val = [] then s.buf = [] else s.allDataRead
        buf := s.buf ++ r.val }
      (true, { s with events := s.events ++ [.fill s.buf.length] })

end

end CivetWeb
