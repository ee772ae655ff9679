import CivetWeb.Form.Callbacks
import CivetWeb.Lib.Machine

namespace CivetWeb

abbrev EQUALS : Byte := 61
abbrev AMPERSAND : Byte := 38

/-- `strchr`, as an offset. -/
def strchrAt (s : List Byte) (c : Byte) : Option Nat := (cstr s).idxOf? c

/-- The locals of one turn of the loop over the fields; `val` is an offset into the buffer. -/
structure FieldLocals where
  keylen : Nat
  storage : UInt32
  val : Nat
  getBlock : Nat

/-- The places the loop over a url encoded body goes through: the head of the loop over the
fields, and the head of the loop over the blocks of a value. -/
inductive FieldsAt (W : Type) where
  | field (s : FormState W)
  | block (f : FieldLocals) (s : FormState W)

/-- The return value of `mg_handle_form_request`, and where it leaves everything. -/
abbrev FormResult (W : Type) := Int × FormState W

section
variable {W : Type} (env : FormHandler W)

/-- A turn from the search for the key on. -/
def fieldKey (s : FormState W) : FieldsAt W ⊕ FormResult W :=
  match strchrAt s.buf EQUALS with
  | none => .inr (s.fieldCount, s)
  | some keylen =>
    let s := { s with fieldCount := s.fieldCount + 1, path := [] }
    let (storage, s) := urlEncodedFieldFound env (s.buf.take keylen) none s
    if storageAborts storage then .inr (s.fieldCount, s)
    else
      let s := if storage = MG_FORM_FIELD_STORAGE_STORE then openStore env s else s
      .inl (.block ⟨keylen, storage, keylen + 1, 0⟩ s)

def fieldStep (s : FormState W) : FieldsAt W ⊕ FormResult W :=
  if s.buf.length < MG_BUF_LEN - 1 then
    match fillBuf env s with
    | (false, s) => .inr (-1, s)
    | (true, s) => if s.buf.length < 1 then .inr (s.fieldCount, s) else fieldKey env s
  else fieldKey env s

/-- What follows the loop over the blocks of a value; `next` is where the next field starts. -/
def fieldEnd (abortRead : Bool) (next : Nat) (s : FormState W) : FieldsAt W ⊕ FormResult W :=
  let (stop, s) := if s.fpOpen then closeStore env s else (false, s)
  if stop ∨ (s.allDataRead ∧ s.buf.length = 0) ∨ abortRead then .inr (s.fieldCount, s)
  else .inl (.field { s with buf := s.buf.drop next })

/-- The end of a turn over a block whose value goes on: the next block is read. -/
def blockNext (f : FieldLocals) (next : Nat) (s : FormState W) : FieldsAt W ⊕ FormResult W :=
  let s := { s with buf := s.buf.drop next }
  if s.buf.length < MG_BUF_LEN - 1 then
    match fillBuf env s with
    | (false, s) => .inr (-1, if s.fpOpen then dropStore env s else s)
    | (true, s) =>
      if s.buf.length < 1 then fieldEnd env false 0 s
      else .inl (.block { f with val := 0 } s)
  else .inl (.block f s)

/-- The end of a turn over a block: the value is written, `next` is behind what was used. -/
def blockEnd (f : FieldLocals) (ended : Bool) (vallen next : Nat) (s : FormState W) :
    FieldsAt W ⊕ FormResult W :=
  let s := writeStore env (s.buf.drop f.val) vallen s
  if ended then fieldEnd env false next s else blockNext env f next s

/-- A turn of the loop over the blocks of a value. -/
def blockStep (f : FieldLocals) (s : FormState W) : FieldsAt W ⊕ FormResult W :=
  let value := s.buf.drop f.val
  let found := strchrAt value AMPERSAND
  let vallen := found.getD (cstr value).length
  let ended := found.isSome || s.allDataRead
  -- a zero byte in the middle of the data
  if found = none ∧ f.val + vallen < s.buf.length then fieldEnd env true 0 s
  else if f.storage = MG_FORM_FIELD_STORAGE_GET then
    let key := if 0 < f.getBlock then [] else s.buf.take f.keylen
    let ((r, vallen), s) := urlEncodedFieldGet env key value vallen s
    if r = MG_FORM_FIELD_HANDLE_ABORT then fieldEnd env true 0 s
    else
      let storage := if r = MG_FORM_FIELD_HANDLE_NEXT then MG_FORM_FIELD_STORAGE_SKIP else f.storage
      let next := f.val + (found.map (· + 1)).getD vallen
      blockEnd env { f with storage := storage, getBlock := f.getBlock + 1 } ended vallen next s
  else blockEnd env f ended vallen (f.val + (found.map (· + 1)).getD vallen) s

def fieldsStep : FieldsAt W → FieldsAt W ⊕ FormResult W
  | .field s => fieldStep env s
  | .block f s => blockStep env f s

end

end CivetWeb
