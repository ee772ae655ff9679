import CivetWeb.Cgi.HandleCgi
import CivetWeb.Conn.Message

namespace CivetWeb

/-- The socket delivers the stream, in pieces of any lengths and with polls between them that find nothing, and
`ending` behind it. -/
inductive Segmented (ending : List NetEvent) : List Byte → List NetEvent → Prop
  | ends : Segmented ending [] ending
  | data (bs : List Byte) {stream : List Byte} {sock : List NetEvent} (hbs : bs ≠ [])
      (h : Segmented ending stream sock) : Segmented ending (bs ++ stream) (.data bs :: sock)
  | tryAgain {stream : List Byte} {sock : List NetEvent} (h : Segmented ending stream sock) :
      Segmented ending stream (.tryAgain :: sock)

/-- What `read_message` returns where no more bytes come, unless the server is stopped: the peer has closed its side,
an error, or the time is over. -/
def endOfStream : List NetEvent → Option Int
  | [] => some (-1)
  | .data [] :: _ => some (-1)
  | .error :: _ => some (-1)
  | .timeout :: _ => some (-3)
  | _ => none

/-- What a stream comes to in a buffer of `bufsiz` bytes: the end of the head or -1 for a malformed byte, -2 for a head
that is too long, or the error of its end. -/
def headEnd (bufsiz : Nat) (stream : List Byte) (endCode : Int) : Int :=
  let requestLen := headerLenFrom 0 (stream.take bufsiz)
  if requestLen ≠ 0 then requestLen else if bufsiz ≤ stream.length then -2 else endCode

/-- A head that is found in the bytes read is that of the stream. -/
theorem headEnd_found {bufsiz : Nat} {data stream : List Byte} (endCode : Int) (hdata : data.length ≤ bufsiz)
    (h : headerLenFrom 0 data ≠ 0) : headEnd bufsiz (data ++ stream) endCode = headerLenFrom 0 data := by
  have htake : (data ++ stream).take bufsiz = data ++ stream.take (bufsiz - data.length) := by
    rw [List.take_append, List.take_of_length_le hdata]
  have hsame := headerLenFrom_append 0 data (stream.take (bufsiz - data.length)) h
  rw [headEnd, htake, hsame]
  exact if_pos h

/-- Where the buffer is full, its bytes decide. -/
theorem headEnd_full {bufsiz : Nat} {data stream : List Byte} (endCode : Int) (hdata : data.length = bufsiz) :
    headEnd bufsiz (data ++ stream) endCode = if headerLenFrom 0 data ≠ 0 then headerLenFrom 0 data else -2 := by
  have hlen : bufsiz ≤ (data ++ stream).length := by
    rw [List.length_append]
    omega
  have htake : (data ++ stream).take bufsiz = data := by rw [← hdata, List.take_left]
  rw [headEnd, htake, if_pos hlen]

theorem headEnd_over {bufsiz : Nat} {data : List Byte} (endCode : Int) (hdata : data.length < bufsiz)
    (h : headerLenFrom 0 data = 0) : headEnd bufsiz data endCode = endCode := by
  rw [headEnd, List.take_of_length_le hdata.le, if_neg (not_not.mpr h), if_neg (by omega)]

theorem Segmented.running {ending sock : List NetEvent} {stream : List Byte} (h : Segmented ending stream sock)
    {endCode : Int} (hend : endOfStream ending = some endCode) : stopFlag sock = false := by
  cases h with
  | data bs hbs h => rfl
  | tryAgain h => rfl
  | ends =>
    unfold endOfStream at hend
    split at hend <;> first | rfl | cases hend

/-- A buffer that is full or has the end of the head in it is not read into. -/
theorem readMessage_decided (sock : List NetEvent) (buf stream : List Byte) (nread : Nat) (endCode : Int)
    (hnread : nread ≤ buf.length) (hrun : stopFlag sock = false)
    (h : getHttpHeaderLen buf nread ≠ 0 ∨ nread = buf.length) :
    (readMessage sock buf nread).requestLen = headEnd buf.length (buf.take nread ++ stream) endCode := by
  have hlen : (buf.take nread).length = nread := by rw [List.length_take, Nat.min_eq_left hnread]
  by_cases hfound : getHttpHeaderLen buf nread = 0
  · obtain rfl := h.resolve_left (not_not.mpr hfound)
    rw [readMessage_full sock buf hrun, headEnd_full endCode hlen]
    rfl
  · rw [headEnd_found endCode (by omega) hfound]
    unfold readMessage
    rw [if_pos hfound]
    rfl

/-- However the bytes of a client are cut, `read_message` comes to the same. -/
theorem readMessage_headEnd {ending sock : List NetEvent} {stream : List Byte} {endCode : Int}
    (hsock : Segmented ending stream sock) (hend : endOfStream ending = some endCode) (buf : List Byte) (nread : Nat)
    (hnread : nread ≤ buf.length) :
    (readMessage sock buf nread).requestLen = headEnd buf.length (buf.take nread ++ stream) endCode := by
  have hlen : (buf.take nread).length = nread := by rw [List.length_take, Nat.min_eq_left hnread]
  induction hsock generalizing buf nread with
  | ends =>
    have hrun := Segmented.ends.running hend
    by_cases hdecided : getHttpHeaderLen buf nread ≠ 0 ∨ nread = buf.length
    · exact readMessage_decided ending buf [] nread endCode hnread hrun hdecided
    obtain ⟨hzero, hroom⟩ := not_or.mp hdecided
    rw [readMessage_pullInner ending buf nread (not_not.mp hzero) hrun (by omega), List.append_nil,
      headEnd_over endCode (by omega) (not_not.mp hzero)]
    unfold endOfStream at hend
    split at hend <;> cases hend <;> rfl
  | @data bs stream sock hbs h ih =>
    have hrun : stopFlag (.data bs :: sock) = false := rfl
    by_cases hdecided : getHttpHeaderLen buf nread ≠ 0 ∨ nread = buf.length
    · exact readMessage_decided _ buf (bs ++ stream) nread endCode hnread hrun hdecided
    obtain ⟨hzero, hroom⟩ := not_or.mp hdecided
    rw [readMessage_pullInner _ buf nread (not_not.mp hzero) hrun (by omega), pullInner, if_neg hbs]
    by_cases hlong : buf.length - nread < bs.length
    · -- the buffer takes a part of the segment, and decides
      rw [if_pos hlong]
      dsimp only
      have htake : nread + (bs.take (buf.length - nread)).length = buf.length := by
        rw [List.length_take]
        omega
      have hstored := storeAt_take buf (bs.take (buf.length - nread)) nread hnread
      have hlength := storeAt_length buf (bs.take (buf.length - nread)) nread htake.le
      have hfull := readMessage_decided (.data (bs.drop (buf.length - nread)) :: sock)
        (storeAt buf nread (bs.take (buf.length - nread))) (bs.drop (buf.length - nread) ++ stream)
        (nread + (bs.take (buf.length - nread)).length) endCode (by omega) rfl (.inr (by omega))
      rw [hfull, hstored, hlength, List.append_assoc, ← List.append_assoc (bs.take _), List.take_append_drop]
    · rw [if_neg hlong]
      dsimp only
      have hstored := storeAt_take buf bs nread hnread
      have hlength := storeAt_length buf bs nread (by omega)
      have hnext := ih (storeAt buf nread bs) (nread + bs.length) (by omega)
        (by rw [List.length_take, Nat.min_eq_left (by omega)])
      rw [hnext, hstored, hlength, List.append_assoc]
  | @tryAgain stream sock h ih =>
    have hrun : stopFlag (.tryAgain :: sock) = false := rfl
    by_cases hdecided : getHttpHeaderLen buf nread ≠ 0 ∨ nread = buf.length
    · exact readMessage_decided _ buf stream nread endCode hnread hrun hdecided
    obtain ⟨hzero, hroom⟩ := not_or.mp hdecided
    rw [readMessage_pullInner _ buf nread (not_not.mp hzero) hrun (by omega), pullInner]
    exact ih buf nread hnread hlen

/-- However the output of a CGI program is cut, `read_message` comes to the same. -/
theorem readPipeMessage_headEnd (bufsiz turns : Nat) (stops : List Bool) (pipe : OpenFile) (data : List Byte)
    (hdata : data.length ≤ bufsiz) (hturns : bufsiz - data.length < turns) (hreads : none ∉ pipe.reads)
    (hstops : true ∉ stops) :
    (readPipeMessage bufsiz turns stops pipe data).requestLen = headEnd bufsiz (data ++ pipe.rest) (-1) := by
  induction turns generalizing stops pipe data with
  | zero => omega
  | succ turns ih =>
    have hscan : getHttpHeaderLen data data.length = headerLenFrom 0 data := by
      rw [getHttpHeaderLen, List.take_length]
    unfold readPipeMessage
    dsimp only
    rw [hscan]
    by_cases hfound : headerLenFrom 0 data = 0
    swap
    · rw [if_pos hfound, headEnd_found _ hdata hfound]
    rw [if_neg (not_not.mpr hfound), if_neg (stops_unset stops hstops)]
    by_cases hfull : bufsiz ≤ data.length
    · rw [if_pos hfull, headEnd_full _ (by omega), if_neg (not_not.mpr hfound)]
    rw [if_neg hfull]
    obtain ⟨k, reads, hread, hk, hkle, hreads'⟩ := pipe.read_some (bufsiz - data.length) (by omega) hreads
    rw [hread]
    dsimp only
    have hstops' : ¬ stops.tail.headD false = true := stops_unset _ fun h => hstops (List.mem_of_mem_tail h)
    by_cases hnil : pipe.rest.take k = []
    · have hrest : pipe.rest = [] := by
        rcases List.take_eq_nil_iff.mp hnil with h | h
        · omega
        · exact h
      rw [if_pos (.inl hnil), hrest, List.append_nil, headEnd_over _ (by omega) hfound]
    · have hlength : (pipe.rest.take k).length ≤ k := List.length_take_le _ _
      have hpos := List.length_pos_of_ne_nil hnil
      have hnext := ih stops.tail.tail { pipe with pos := pipe.pos + (pipe.rest.take k).length, reads := reads }
        (data ++ pipe.rest.take k) (by rw [List.length_append]; omega) (by rw [List.length_append]; omega) hreads'
        fun h => hstops (List.mem_of_mem_tail (List.mem_of_mem_tail h))
      rw [if_neg (not_or.mpr ⟨hnil, hstops'⟩), hnext, List.append_assoc,
        pipe.take_rest k reads]

/-- More bytes behind a head, or behind a malformed byte, do not change what `get_http_header_len` finds; a client's
request is read up to the same place, or to the same error, however its bytes are cut, and so is the head of a CGI
program. -/
theorem headEnd_stable :
    (∀ b e : List Byte, getHttpHeaderLen b b.length ≠ 0 →
      getHttpHeaderLen (b ++ e) (b ++ e).length = getHttpHeaderLen b b.length) ∧
    (∀ (ending sock : List NetEvent) (stream buf : List Byte) (nread : Nat) (endCode : Int), nread ≤ buf.length →
      Segmented ending stream sock → endOfStream ending = some endCode →
        (readMessage sock buf nread).requestLen = headEnd buf.length (buf.take nread ++ stream) endCode) ∧
    ∀ (bufsiz turns : Nat) (stops : List Bool) (pipe : OpenFile), bufsiz < turns → none ∉ pipe.reads →
      true ∉ stops →
        (readPipeMessage bufsiz turns stops pipe []).requestLen = headEnd bufsiz pipe.rest (-1) := by
  refine ⟨?_, ?_, ?_⟩
  · intro b e h
    rw [getHttpHeaderLen, List.take_length] at h ⊢
    rw [getHttpHeaderLen, List.take_length]
    exact headerLenFrom_append 0 b e h
  · intro ending sock stream buf nread endCode hnread hsock hend
    exact readMessage_headEnd hsock hend buf nread hnread
  · intro bufsiz turns stops pipe hturns hreads hstops
    have h := readPipeMessage_headEnd bufsiz turns stops pipe [] (Nat.zero_le _) (by simpa using hturns) hreads hstops
    rwa [List.nil_append] at h

/-- A request in one piece, and cut within its empty line. -/
theorem headEnd_stable_cut :
    (readMessage [.data (ascii "GET / HTTP/1.0" ++ CRLF ++ CRLF ++ ascii "abc")]
        (List.replicate 32 0) 0).requestLen = 18 ∧
      (readMessage [.data (ascii "GET / HTTP/1.0" ++ CRLF ++ [CR]), .tryAgain, .data (LF :: ascii "abc")]
        (List.replicate 32 0) 0).requestLen = 18 := by
  have hwhole : Segmented [] (ascii "GET / HTTP/1.0" ++ CRLF ++ CRLF ++ ascii "abc" ++ [])
      [.data (ascii "GET / HTTP/1.0" ++ CRLF ++ CRLF ++ ascii "abc")] := .data _ (by decide) .ends
  have hcut : Segmented [] (ascii "GET / HTTP/1.0" ++ CRLF ++ [CR] ++ (LF :: ascii "abc" ++ []))
      [.data (ascii "GET / HTTP/1.0" ++ CRLF ++ [CR]), .tryAgain, .data (LF :: ascii "abc")] :=
    .data _ (by decide) (.tryAgain (.data _ (by decide) .ends))
  have hsame := headEnd_stable.2.1
  rw [hsame [] _ _ (List.replicate 32 0) 0 (-1) (by decide) hwhole rfl,
    hsame [] _ _ (List.replicate 32 0) 0 (-1) (by decide) hcut rfl]
  exact ⟨by decide +kernel, by decide +kernel⟩

end CivetWeb
