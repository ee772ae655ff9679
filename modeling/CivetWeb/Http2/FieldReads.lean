import CivetWeb.Http2.Representations
import CivetWeb.Http2.StringReads

namespace CivetWeb

open Hpack

/-! ### The integers of a header block -/

section
variable (dynTable : List MgHeader) (buf : List Byte) (maxI : Nat) {i j idx : Nat} {mask : Byte}
  (hget : hpackGetnum buf i mask = some (idx, j))
include hget

end

/-- An index from 2^62 on is taken for that of `:method: GET`. -/
example : nextHeader [] [0xFF, 0x83, 0x87, 0x80, 0x80, 0x80, 0x80, 0xFF, 0xFF, 0xFF, 0x01] 11 0 =
    some (some ⟨ascii ":method", ascii "GET"⟩, [], 11) := by decide +kernel

end CivetWeb
