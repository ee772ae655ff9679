import CivetWeb.Http2.IntegerReads
import CivetWeb.Http2.StringRoundTrip

namespace CivetWeb

open Hpack

/-! ### Strings as they are read -/

end CivetWeb
