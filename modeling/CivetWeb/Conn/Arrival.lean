import CivetWeb.Conn.Message

namespace CivetWeb

/-- The bytes that a socket delivers before a look at it finds none, polls apart. -/
def sockLeading : List NetEvent → List Byte
  | [] => []
  | .data bs :: s => if bs = [] then [] else bs ++ sockLeading s
  | .tryAgain :: s => sockLeading s
  | .timeout :: _ => []
  | .error :: _ => []
  | .stop :: _ => []

/-- The bytes that a connection has or gets before a look at its socket finds none. -/
def Conn.arrived (conn : Conn) : List Byte := conn.buf.take conn.dataLen ++ sockLeading conn.sock

/-- Where the end of the head is in the bytes read, they are no shorter than the head. -/
theorem headerLen_of_prefix {head data stream : List Byte} (hhead : head <+: stream) (hdata : data <+: stream)
    (hne : head ≠ []) (hfound : headerLenFrom 0 head = head.length) :
    headerLenFrom 0 data = 0 ∧ data.length < head.length ∨ headerLenFrom 0 data = head.length := by
  obtain ⟨more, rfl⟩ := hhead
  have hpos := List.length_pos_of_ne_nil hne
  by_cases hzero : headerLenFrom 0 data = 0
  · refine .inl ⟨hzero, ?_⟩
    by_contra hle
    obtain ⟨x, rfl⟩ := List.prefix_of_prefix_length_le ⟨more, rfl⟩ hdata (not_lt.mp hle)
    rw [headerLenFrom_append 0 head x (by omega), hfound] at hzero
    omega
  · right
    obtain ⟨x, hx⟩ := hdata
    rw [← headerLenFrom_append 0 data x hzero, hx, headerLenFrom_append 0 head more (by omega), hfound]

/-- A head that arrives and fits the buffer is found. -/
theorem readMessage_arrived (head : List Byte) (hne : head ≠ []) (hfound : headerLenFrom 0 head = head.length)
    (sock : List NetEvent) (buf : List Byte) (nread : Nat) (hnread : nread ≤ buf.length)
    (hfits : head.length ≤ buf.length) (hpre : head <+: buf.take nread ++ sockLeading sock) :
    (readMessage sock buf nread).requestLen = head.length := by
  have hpos := List.length_pos_of_ne_nil hne
  have hlen : (buf.take nread).length = nread := List.length_take_of_le hnread
  have hdone (sock : List NetEvent) (buf : List Byte) (nread : Nat)
      (h : headerLenFrom 0 (buf.take nread) = head.length) : (readMessage sock buf nread).requestLen = head.length := by
    rw [readMessage.eq_def, getHttpHeaderLen, if_pos (by omega)]
    exact h
  induction sock generalizing buf nread with
  | nil =>
    rcases headerLen_of_prefix hpre (List.prefix_append _ _) hne hfound with ⟨-, hshort⟩ | hhere
    · have hle := hpre.length_le
      rw [sockLeading, List.append_nil] at hle
      omega
    · exact hdone _ _ _ hhere
  | cons e s ih =>
    rcases headerLen_of_prefix hpre (List.prefix_append _ _) hne hfound with ⟨hzero, hshort⟩ | hhere
    swap
    · exact hdone _ _ _ hhere
    have hgone (h : sockLeading (e :: s) = []) : False := by
      have hle := hpre.length_le
      rw [h, List.append_nil] at hle
      omega
    have hmore : getHttpHeaderLen buf nread = 0 := hzero
    cases e with
    | data bs =>
      by_cases hnil : bs = []
      · exact (hgone (by rw [sockLeading, if_pos hnil])).elim
      rw [sockLeading, if_neg hnil] at hpre
      rw [readMessage_pullInner _ buf nread hmore rfl (by omega), pullInner, if_neg hnil]
      by_cases hfull : buf.length - nread < bs.length
      · -- the buffer is full with the head in it
        rw [if_pos hfull]
        dsimp only
        have htake : nread + (bs.take (buf.length - nread)).length = buf.length := by
          rw [List.length_take]
          omega
        have hstored := storeAt_take buf (bs.take (buf.length - nread)) nread hnread
        have hlength := storeAt_length buf (bs.take (buf.length - nread)) nread htake.le
        rw [htake] at hstored ⊢
        have hread := readMessage_full (.data (bs.drop (buf.length - nread)) :: s)
          (storeAt buf nread (bs.take (buf.length - nread))) rfl
        rw [hlength] at hread
        rw [hread]
        have hdata : buf.take nread ++ bs.take (buf.length - nread) <+: buf.take nread ++ (bs ++ sockLeading s) :=
          List.prefix_append_right_inj _ |>.mpr ((List.take_prefix _ _).trans (List.prefix_append _ _))
        rcases headerLen_of_prefix hpre hdata hne hfound with ⟨-, hshort⟩ | hhere
        · rw [List.length_append, hlen] at hshort
          omega
        · dsimp only
          rw [getHttpHeaderLen, hstored, if_pos (by omega)]
          exact hhere
      · rw [if_neg hfull]
        dsimp only
        have hstored := storeAt_take buf bs nread hnread
        have hlength := storeAt_length buf bs nread (by omega)
        apply ih
        · omega
        · omega
        · rw [hstored, List.append_assoc]
          exact hpre
        · rw [hstored, List.length_append, hlen]
    | tryAgain =>
      rw [readMessage_pullInner _ buf nread hmore rfl (by omega)]
      exact ih buf nread hnread hfits hpre hlen
    | timeout => exact (hgone rfl).elim
    | error => exact (hgone rfl).elim
    | stop => exact (hgone rfl).elim

/-- `get_message` on a connection on which a head arrives. -/
theorem getMessage_arrived (conn : Conn) (head : List Byte) (hne : head ≠ [])
    (hfound : headerLenFrom 0 head = head.length) (hle : conn.dataLen ≤ conn.buf.length)
    (hfits : head.length ≤ conn.buf.length) (hpre : head <+: conn.arrived) :
    ∃ c, getMessage conn = (none, c) ∧ c.requestLen = head.length := by
  have hpos := List.length_pos_of_ne_nil hne
  have hlen := readMessage_arrived head hne hfound conn.sock conn.buf conn.dataLen hle hfits hpre
  have hread := readMessage_spec conn.sock conn.buf conn.dataLen
  have hnread := hread.found (by omega)
  rw [getHttpHeaderLen] at hnread
  have hmost := headerLenFrom_le 0 ((readMessage conn.sock conn.buf conn.dataLen).buf.take
    (readMessage conn.sock conn.buf conn.dataLen).nread)
  rw [List.length_take] at hmost
  unfold getMessage
  simp only [resetPerRequestAttributes, hlen]
  rw [if_neg (by omega), if_neg (by omega), if_neg (by omega)]
  exact ⟨_, rfl, rfl⟩

end CivetWeb
