import CivetWeb.Conn.Socket
import CivetWeb.Http.Request

namespace CivetWeb

def INT_MAX : Nat := 2 ^ 31 - 1
def INT64_MAX : Int := 2 ^ 63 - 1

/-- The options of a domain that are read between two requests. -/
structure DomainContext where
  authenticationDomain : List Byte
  enableKeepAlive : List Byte
  enableAuthDomainCheck : List Byte
  deriving DecidableEq, Repr

/-- A `mg_connection`. `buf` is all of `conn->buf`, so its length is `buf_size`; `domains`
is the list that starts at `phys_ctx->dd`, with `domCtx` an index into it; `sock` is
what the client's socket is going to deliver. The 64-bit counters are unbounded. -/
structure Conn where
  ssl : Bool
  domains : List DomainContext
  domCtx : Nat
  lsaPort : Nat
  sock : List NetEvent
  buf : List Byte
  dataLen : Nat
  requestLen : Int
  contentLen : Int
  consumedContent : Nat
  isChunked : Nat
  mustClose : Bool
  handledRequests : Nat
  protocolType : Int
  requestInfo : RequestInfo
  infoContentLength : Int
  localUri : Option (List Byte)
  deriving DecidableEq, Repr

/-- `mg_read_inner`; `none` is its -1. -/
def mgReadInner (conn : Conn) (len : Nat) : Option (List Byte) × Conn :=
  let len64 := min len INT_MAX
  -- without a length the body ends with the connection
  let contentLen := if conn.contentLen < 0 then INT64_MAX else conn.contentLen
  if conn.consumedContent < contentLen then
    let leftToRead := contentLen - conn.consumedContent
    let len64 := if leftToRead < len64 then leftToRead.toNat else len64
    let bufferedLen : Int := conn.dataLen - conn.requestLen - conn.consumedContent
    let buffered := min len64 bufferedLen.toNat
    let body := (conn.buf.drop (conn.requestLen + conn.consumedContent).toNat).take buffered
    let (n, sock) := pullAll conn.sock (len64 - buffered)
    match n with
    | some bs =>
      (some (body ++ bs),
        { conn with consumedContent := conn.consumedContent + buffered + bs.length, sock := sock })
    | none =>
      (if 0 < buffered then some body else none,
        { conn with consumedContent := conn.consumedContent + buffered, sock := sock })
  else (some [], conn)

/-- The bytes behind the request head that no read has taken yet. -/
def Conn.unread (conn : Conn) : List Byte :=
  (conn.buf.take conn.dataLen).drop (conn.requestLen + conn.consumedContent).toNat ++
    sockBytes conn.sock

/-- What reads of one byte find behind the request head, one after another. -/
def Conn.wire (conn : Conn) : List (Option Byte) :=
  ((conn.buf.take conn.dataLen).drop (conn.requestLen + conn.consumedContent).toNat).map some ++ sockWire conn.sock

/-- A connection whose body can be read. -/
structure Conn.Placed (conn : Conn) : Prop where
  head_nonneg : 0 ≤ conn.requestLen
  head_le : conn.requestLen ≤ conn.dataLen
  data_le : conn.dataLen ≤ conn.buf.length

/-- A connection whose body can be read, on a socket that delivers its stream. -/
structure Conn.Ready (conn : Conn) : Prop extends conn.Placed where
  steady : Steady conn.sock

theorem Conn.unbroken (conn : Conn) (h : Steady conn.sock) : Unbroken conn.wire :=
  unbroken_append _ _ (unbroken_steady conn.sock h)

/-- A read moves on in the body by what it returns, and leaves all else as it is. -/
structure ReadStep (conn conn' : Conn) (bs : List Byte) : Prop where
  frame : conn' = { conn with
    consumedContent := conn.consumedContent + bs.length, sock := conn'.sock }
  unread : conn.unread = bs ++ conn'.unread
  placed : conn'.Placed
  steady : Steady conn.sock → Steady conn'.sock

theorem ReadStep.contentLen (conn conn' : Conn) (bs : List Byte) (h : ReadStep conn conn' bs) :
    conn'.contentLen = conn.contentLen := by rw [h.frame]

theorem ReadStep.isChunked (conn conn' : Conn) (bs : List Byte) (h : ReadStep conn conn' bs) :
    conn'.isChunked = conn.isChunked := by rw [h.frame]

theorem ReadStep.consumedContent (conn conn' : Conn) (bs : List Byte)
    (h : ReadStep conn conn' bs) :
    conn'.consumedContent = conn.consumedContent + bs.length := by rw [h.frame]

theorem ReadStep.refl (conn : Conn) (h : conn.Placed) : ReadStep conn conn [] :=
  ⟨by simp, by simp, h, fun hs => hs⟩

/-- The bytes that a read of `len` asks the stream for. -/
def wanted (conn : Conn) (len : Nat) : Nat :=
  let contentLen := if conn.contentLen < 0 then INT64_MAX else conn.contentLen
  min (min len INT_MAX) (contentLen - conn.consumedContent).toNat

/-- What a read returns: the next unread bytes, as many as were asked for unless a look at the socket finds nothing;
it fails only with none. -/
structure ReadInner (conn : Conn) (len : Nat) (bs : List Byte) (r : Option (List Byte) × Conn) : Prop where
  step : ReadStep conn r.2 bs
  result : r.1 = some bs ∨ r.1 = none ∧ bs = []
  taken : Taken conn.wire (wanted conn len) bs r.2.wire
  all : Steady conn.sock → bs = conn.unread.take (wanted conn len)

theorem mgReadInner_spec (conn : Conn) (len : Nat) (h : conn.Placed) :
    ∃ bs, ReadInner conn len bs (mgReadInner conn len) := by
  obtain ⟨total, htotal⟩ : ∃ t : Int, t = if conn.contentLen < 0 then INT64_MAX else conn.contentLen :=
    ⟨_, rfl⟩
  obtain ⟨hneg, hle, hdata⟩ := h
  by_cases hmore : (conn.consumedContent : Int) < total
  swap
  · have hzero : wanted conn len = 0 := by
      rw [wanted, ← htotal]
      omega
    have hread : mgReadInner conn len = (some [], conn) := by
      unfold mgReadInner
      simp only [← htotal, if_neg hmore]
    rw [hread]
    refine ⟨[], ReadStep.refl conn ⟨hneg, hle, hdata⟩, .inl rfl, .full rfl hzero.symm, fun _ => ?_⟩
    rw [hzero, List.take_zero]
  obtain ⟨k, hk⟩ : ∃ k : Nat, k = wanted conn len := ⟨_, rfl⟩
  obtain ⟨pos, hpos⟩ : ∃ pos, pos = (conn.requestLen + conn.consumedContent).toNat := ⟨_, rfl⟩
  obtain ⟨body, hbody⟩ : ∃ body, body = (conn.buf.take conn.dataLen).drop pos := ⟨_, rfl⟩
  have hbodylen : body.length = conn.dataLen - pos := by
    rw [hbody, List.length_drop, List.length_take]
    omega
  have hunread : conn.unread = body ++ sockBytes conn.sock := by
    rw [Conn.unread, ← hpos, ← hbody]
  have hwire : conn.wire = body.map some ++ sockWire conn.sock := by
    rw [Conn.wire, ← hpos, ← hbody]
  obtain ⟨more, hres, hbytes, htaken, hsteady⟩ := pullAll_taken conn.sock (k - body.length)
  obtain ⟨c, hc⟩ : ∃ c, c = { conn with
      consumedContent := conn.consumedContent + (body.take k ++ more).length
      sock := (pullAll conn.sock (k - body.length)).2 } := ⟨_, rfl⟩
  -- the two parts of what is read: from the buffer, then from the socket
  have hread : (mgReadInner conn len).2 = c ∧
      ((mgReadInner conn len).1 = some (body.take k ++ more) ∨
        (mgReadInner conn len).1 = none ∧ body.take k ++ more = []) := by
    have hlen : (if total - conn.consumedContent < ((min len INT_MAX : Nat) : Int)
        then (total - conn.consumedContent).toNat else min len INT_MAX) = k := by
      rw [hk, wanted, ← htotal]
      split_ifs with hc <;> omega
    have hbl : ((conn.dataLen : Int) - conn.requestLen - conn.consumedContent).toNat = body.length := by omega
    have hpart : (conn.buf.drop pos).take (min k body.length) = body.take k := by
      rw [hbodylen, hbody, List.drop_take, List.take_take]
    have hcount : min k body.length = (body.take k).length := by rw [List.length_take]
    have hrest : k - min k body.length = k - body.length := by omega
    unfold mgReadInner
    simp only [← htotal, if_pos hmore, hlen, hbl, ← hpos, hpart, hrest]
    rcases hres with hres | ⟨hres, hnil⟩
    · rw [← Prod.eta (pullAll conn.sock (k - body.length)), hres]
      dsimp only
      refine ⟨?_, .inl rfl⟩
      rw [hc, hcount, List.length_append, Nat.add_assoc]
    · rw [← Prod.eta (pullAll conn.sock (k - body.length)), hres]
      dsimp only
      rw [hnil, List.append_nil] at hc ⊢
      refine ⟨by rw [hc, hcount], ?_⟩
      by_cases hz : 0 < min k body.length
      · rw [if_pos hz]
        exact .inl rfl
      · rw [if_neg hz]
        exact .inr ⟨rfl, List.eq_nil_of_length_eq_zero (by omega)⟩
  have hafter : (c.buf.take c.dataLen).drop (c.requestLen + c.consumedContent).toNat = body.drop k := by
    have hpast : (c.requestLen + c.consumedContent).toNat = pos + (body.take k ++ more).length := by
      rw [hc]
      push_cast
      omega
    have hmore := htaken.le
    rw [hpast, ← List.drop_drop, hc]
    dsimp only
    rw [← hbody, List.length_append, List.length_take]
    by_cases hkb : k ≤ body.length
    · congr 1
      omega
    · rw [List.drop_eq_nil_of_le (by omega), List.drop_eq_nil_of_le (by omega)]
  have hsock : c.sock = (pullAll conn.sock (k - body.length)).2 := by rw [hc]
  have hparts : more = [] ∧ k ≤ body.length ∨ body.take k = body ∧ body.drop k = [] := by
    by_cases hkb : k ≤ body.length
    · have hmore := htaken.le
      exact .inl ⟨List.eq_nil_of_length_eq_zero (by omega), hkb⟩
    · exact .inr ⟨List.take_of_length_le (by omega), List.drop_eq_nil_of_le (by omega)⟩
  refine ⟨body.take k ++ more, ⟨?_, hread.2, ?_, ?_⟩⟩
  · rw [hread.1]
    refine ⟨by rw [hc], ?_, by rw [hc]; exact ⟨hneg, hle, hdata⟩, ?_⟩
    · have hc' : c.unread = body.drop k ++ sockBytes c.sock := by rw [Conn.unread, hafter]
      rw [hc', hunread, hbytes, hsock]
      rcases hparts with ⟨hnil, -⟩ | ⟨hall, hnone⟩
      · rw [hnil, List.append_nil, List.nil_append, ← List.append_assoc, List.take_append_drop]
      · rw [hall, hnone, List.nil_append, List.append_assoc]
    · rw [hsock]
      exact fun hs => (hsteady hs).2
  · have hc' : c.wire = (body.drop k).map some ++ sockWire c.sock := by rw [Conn.wire, hafter]
    rw [hread.1, hc', hwire, hsock, ← hk]
    rcases hparts with ⟨hnil, hkb⟩ | ⟨hall, hnone⟩
    · have hnone : k - body.length = 0 := by omega
      rw [hnone] at htaken ⊢
      rw [htaken.zero.2, hnil, List.append_nil]
      refine .full ?_ (List.length_take_of_le hkb)
      rw [← List.append_assoc, ← List.map_append, List.take_append_drop]
    · have hle := List.drop_eq_nil_iff.mp hnone
      have hboth := htaken.append body
      rw [show body.length + (k - body.length) = k by omega] at hboth
      rwa [hall, hnone, List.map_nil, List.nil_append]
  · intro hs
    rw [(hsteady hs).1, ← hk, hunread, List.take_append]

end CivetWeb
