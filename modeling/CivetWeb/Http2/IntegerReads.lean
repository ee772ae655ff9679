import CivetWeb.Conn.Write
import CivetWeb.Http2.Strings
import CivetWeb.Lib.HpackRead

namespace CivetWeb

open Hpack

/-! ### Integers as they are read -/

end CivetWeb
