import CivetWeb.Form.FormValue

namespace CivetWeb

/-- What the loop of `mg_url_decode` writes before it stops. -/
def urlDecodeWritten (isForm : Bool) : Nat → List Byte → List Byte
  | _, [] => []
  | 0, _ :: _ => []
  | room + 1, c :: src =>
    match src with
    | a :: b :: rest =>
      if c = PERCENT ∧ isxdigit a ∧ isxdigit b then
        hexByte a b :: urlDecodeWritten isForm room rest
      else ((decodeByte isForm c).map (· :: urlDecodeWritten isForm room src)).getD []
    | _ => ((decodeByte isForm c).map (· :: urlDecodeWritten isForm room src)).getD []

/-- `url_decode_in_place` on a C string; where the decoding fails, its rest stays as it is. -/
def urlDecodeInPlace (s : List Byte) : List Byte :=
  let len := sizeToInt s.length
  match mgUrlDecodeInt s len (len + 1) true with
  | some d => cstr d
  | none =>
    let written := urlDecodeWritten true len.toNat (s.take len.toNat)
    cstr (written ++ s.drop written.length)

theorem urlDecodeInPlace_eq (s : List Byte) :
    urlDecodeInPlace s =
      let text := s.take (intLength s.length)
      match mgUrlDecode text (text.length + 1) true with
      | some d => cstr d
      | none =>
        let written := urlDecodeWritten true text.length text
        cstr (written ++ s.drop written.length) := by
  have hlen : (s.take (intLength s.length)).length = intLength s.length := by
    rw [List.length_take, Nat.min_eq_left (intLength_le s.length)]
  unfold urlDecodeInPlace
  dsimp only
  rw [mgUrlDecodeInt_whole, hlen]
  rfl

/-- `mg_split_form_urlencoded` from the current position on; the fields are not decoded yet. -/
def splitFormLoop : Nat → List Byte → List (List Byte × Option (List Byte))
  | 0, _ => []
  | slots + 1, data =>
    let data := data.dropWhile isblank
    if data = [] then []
    else
      let name := data.takeWhile (fun c => c != AMPERSAND && c != EQUALS)
      let b := data.dropWhile (fun c => c != AMPERSAND && c != EQUALS)
      if deref b = EQUALS then
        -- the value starts behind the '='
        let value := b.tail.takeWhile (· != AMPERSAND)
        match b.tail.dropWhile (· != AMPERSAND) with
        | [] => [(name, some value)]
        | _ :: rest => (name, some value) :: splitFormLoop slots rest
      else
        match b with
        | [] => [(name, none)]
        | _ :: rest => (name, none) :: splitFormLoop slots rest

/-- The number of fields as `mg_split_form_urlencoded` counts them where no fields are asked for. -/
def countFormFields (data : List Byte) : Nat :=
  if data = [] then 0 else data.count AMPERSAND + 1

/-- `mg_split_form_urlencoded`: its return value and the fields it fills in; `formFields` says that the
array is there. -/
def mgSplitFormUrlencoded (data : Option (List Byte)) (formFields : Bool) (numFormFields : Nat) :
    Int × List (List Byte × Option (List Byte)) :=
  match data with
  | none => (-1, [])
  | some data =>
    if formFields = false ∧ numFormFields = 0 then (countFormFields data, [])
    else if formFields = false ∨ numFormFields = 0 ∨ 2 ^ 31 ≤ numFormFields then (-1, [])
    else
      let fields := (splitFormLoop numFormFields data).map
        (fun f => (urlDecodeInPlace f.1, f.2.map urlDecodeInPlace))
      (fields.length, fields)

/-- The loop of `mg_get_var2` at `p`, with the byte before it where there is one. -/
def getVarLoop (name : List Byte) (dstLen : Nat) : Option Byte → Nat → List Byte → Int × List Byte
  | _, _, [] => (-1, [])
  | before, occurrence, c :: p =>
    if name.length < (c :: p).length ∧ (before = none ∨ before = some AMPERSAND) ∧
        (c :: p).getD name.length NUL = EQUALS ∧ mgStrncasecmp name (c :: p) name.length = 0 then
      if occurrence = 0 then
        let value := ((c :: p).drop (name.length + 1)).takeWhile (· != AMPERSAND)
        match mgUrlDecodeInt value (sizeToInt value.length) (sizeToInt dstLen) true with
        | some d => (d.length, d)
        | none => (-2, [])
      else getVarLoop name dstLen (some c) (occurrence - 1) p
    else getVarLoop name dstLen (some c) occurrence p

/-- `mg_get_var2`: its return value, and what it leaves in a destination of `dstLen` bytes. -/
def mgGetVar2 (data : Option (List Byte)) (name : Option (List Byte)) (dstLen occurrence : Nat) :
    Int × List Byte :=
  if dstLen = 0 then (-2, [])
  else
    match data, name with
    | some data, some name => getVarLoop name dstLen none occurrence data
    | _, _ => (-1, [])

end CivetWeb
