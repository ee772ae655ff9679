import CivetWeb.Conn.Write

namespace CivetWeb

/-- A file that is open for reading; `pos` is the position of its descriptor and `reads` has what the next
calls of `read` come to: at most so many bytes, or -1. -/
structure OpenFile where
  content : List Byte
  size : Nat
  pos : Nat
  reads : List (Option Nat)
  deriving DecidableEq, Repr

/-- `read` on the descriptor of a file. -/
def OpenFile.read (file : OpenFile) (len : Nat) : Option (List Byte) × OpenFile :=
  match file.reads with
  | [] =>
    let bs := (file.content.drop file.pos).take len
    (some bs, { file with pos := file.pos + bs.length })
  | none :: reads => (none, { file with reads := reads })
  | some n :: reads =>
    let bs := (file.content.drop file.pos).take (min len (max 1 n))
    (some bs, { file with pos := file.pos + bs.length, reads := reads })

/-- The most bytes that are asked of one `sendfile`. -/
def SENDFILE_MAX : Int := 0x7FFFF000

/-- Where the loop over `sendfile` ends: whether `send_file_data` returns there, `sf_offs`, `len` and what
was sent. -/
structure SendfileEnd where
  returned : Bool
  sfOffs : Nat
  len : Int
  sent : List Byte
  deriving DecidableEq, Repr

/-- The loop over `sendfile`, for what its calls return; behind the last of these it fails. -/
def sendfileLoop (content : List Byte) : List Int → Nat → Nat → Int → List Byte → SendfileEnd
  | [], _, sfOffs, len, sent => ⟨false, sfOffs, len, sent⟩
  | sfSent :: results, loopCnt, sfOffs, len, sent =>
    if 0 < sfSent then
      let sent := sent ++ (content.drop sfOffs).take sfSent.toNat
      if 0 < len - sfSent then
        sendfileLoop content results (loopCnt + 1) (sfOffs + sfSent.toNat) (len - sfSent) sent
      else ⟨true, sfOffs + sfSent.toNat, len - sfSent, sent⟩
    else if loopCnt = 0 then ⟨false, sfOffs, len, sent⟩
    else if sfSent = 0 then ⟨true, sfOffs, len, sent⟩
    else ⟨false, sfOffs, len, sent⟩

/-- The loop that copies a file by `read` and `mg_write`; every turn reads a byte at least. -/
def copyLoop (noBuffering : Bool) : Nat → OpenFile → Int → Output → OpenFile × Output
  | 0, file, _, out => (file, out)
  | turns + 1, file, len, out =>
    if 0 < len then
      let toRead : Nat := if noBuffering then 1 else MG_BUF_LEN
      let toRead := if len < toRead then len.toNat else toRead
      match file.read toRead with
      | (none, file) => (file, out)
      | (some buf, file) =>
        if buf = [] then (file, out)
        else
          let (numWritten, out) := mgWrite out buf
          if numWritten ≠ buf.length then (file, out)
          else copyLoop noBuffering turns file (len - numWritten) out
    else (file, out)

/-- The connection that a file is sent on, with the option `allow_sendfile_call` of its domain. -/
structure SendConn where
  ssl : Bool
  allowSendfileCall : List Byte
  out : Output
  deriving DecidableEq, Repr

/-- The offset that `send_file_data` starts from. -/
def sanityOffset (size : Nat) (offset : Int) : Nat :=
  let size : Int := if INT64_MAX < size then INT64_MAX else size
  (if offset < 0 then 0 else if size < offset then size else offset).toNat

/-- `send_file_data` on a file of the disk: the error that is sent where `fseeko` fails, and what becomes
of the file and the connection. `results` is what `sendfile` returns. -/
def sendFileData (conn : SendConn) (file : OpenFile) (offset len : Int) (noBuffering : Bool)
    (results : List Int) (fseeko : Bool) : Option (Nat × List Byte) × OpenFile × Output :=
  let offset := sanityOffset file.size offset
  if 0 < len then
    let sendfile := !conn.ssl && conn.out.throttle == 0 &&
      mgStrcasecmp conn.allowSendfileCall (ascii "yes") == 0
    let fast : SendfileEnd :=
      if sendfile then sendfileLoop file.content results 0 offset len [] else ⟨false, offset, len, []⟩
    let out := { conn.out with sent := conn.out.sent ++ fast.sent }
    if fast.returned then (none, file, out)
    else if 0 < fast.sfOffs ∧ fseeko = false then
      (some (500, ascii "Error: Unable to access file at requested position."), file, out)
    else
      let sought := if 0 < fast.sfOffs then { file with pos := fast.sfOffs } else file
      let (file, out) := copyLoop noBuffering (file.content.length + 1) sought fast.len out
      (none, file, out)
  else (none, file, conn.out)

/-- What the kernel may return to the loop: positive counts of bytes that are there and were asked for, and
zero only at the end of the file or in the first call. -/
def SendfileResults (content : List Byte) : List Int → Nat → Nat → Int → Prop
  | [], _, _, _ => True
  | sfSent :: results, loopCnt, sfOffs, len =>
    (0 < sfSent → sfSent ≤ min len SENDFILE_MAX ∧ sfOffs + sfSent.toNat ≤ content.length ∧
      SendfileResults content results (loopCnt + 1) (sfOffs + sfSent.toNat) (len - sfSent)) ∧
    (sfSent = 0 → loopCnt = 0 ∨ content.length ≤ sfOffs)

/-- Where the loop over `sendfile` ends, all before it was sent; it returns at the end of what is to be sent
or of the file. -/
structure SendfileStops (content : List Byte) (sfOffs : Nat) (len : Int) (sent : List Byte)
    (e : SendfileEnd) : Prop where
  le : sfOffs ≤ e.sfOffs
  len : (e.sfOffs : Int) + e.len = sfOffs + len
  nonneg : 0 ≤ e.len
  sent : e.sent = sent ++ (content.drop sfOffs).take (e.sfOffs - sfOffs)
  returned : e.returned = true → e.len = 0 ∨ content.length ≤ e.sfOffs

theorem sendfileLoop_stops (content : List Byte) (results : List Int) (loopCnt sfOffs : Nat) (len : Int)
    (sent : List Byte) (hlen : 0 ≤ len) (hresults : SendfileResults content results loopCnt sfOffs len) :
    SendfileStops content sfOffs len sent (sendfileLoop content results loopCnt sfOffs len sent) := by
  have hstay (returned : Bool) (hend : returned = true → len = 0 ∨ content.length ≤ sfOffs) :
      SendfileStops content sfOffs len sent ⟨returned, sfOffs, len, sent⟩ :=
    ⟨Nat.le_refl _, rfl, hlen, by simp, hend⟩
  induction results generalizing loopCnt sfOffs len sent with
  | nil => exact hstay false (fun h => (by cases h))
  | cons sfSent results ih =>
    obtain ⟨hpos, hzero⟩ := hresults
    rw [sendfileLoop]
    by_cases h : 0 < sfSent
    · rw [if_pos h]
      obtain ⟨hmost, hfits, hrest⟩ := hpos h
      have hle : 0 ≤ len - sfSent := by omega
      have hstep (e : SendfileEnd) (he : SendfileStops content (sfOffs + sfSent.toNat) (len - sfSent)
          (sent ++ (content.drop sfOffs).take sfSent.toNat) e) :
          SendfileStops content sfOffs len sent e := by
        have hbehind := he.le
        have hsum := he.len
        refine ⟨by omega, by omega, he.nonneg, ?_, he.returned⟩
        have hsplit : e.sfOffs - sfOffs = sfSent.toNat + (e.sfOffs - (sfOffs + sfSent.toNat)) := by omega
        rw [he.sent, hsplit, List.take_add, List.drop_drop, List.append_assoc]
      have hkept (returned : Bool) (hend : returned = true → len - sfSent = 0) :
          SendfileStops content (sfOffs + sfSent.toNat) (len - sfSent)
            (sent ++ (content.drop sfOffs).take sfSent.toNat) ⟨returned, sfOffs + sfSent.toNat, len - sfSent,
              sent ++ (content.drop sfOffs).take sfSent.toNat⟩ :=
        ⟨Nat.le_refl _, rfl, hle, by simp, fun h => Or.inl (hend h)⟩
      dsimp only
      by_cases hmore : 0 < len - sfSent
      · rw [if_pos hmore]
        apply hstep
        apply ih
        · exact hle
        · exact hrest
        · intro returned hend
          exact ⟨Nat.le_refl _, rfl, hle, by simp, hend⟩
      · rw [if_neg hmore]
        exact hstep _ (hkept true (fun _ => by omega))
    · rw [if_neg h]
      split_ifs with hfirst hend
      · exact hstay false (fun h => (by cases h))
      · exact hstay true (fun _ => Or.inr ((hzero hend).resolve_left hfirst))
      · exact hstay false (fun h => (by cases h))

/-- What is still to be read behind a position. -/
def OpenFile.rest (file : OpenFile) : List Byte := file.content.drop file.pos

/-- A `read` that does not fail takes bytes off what is left, one at least if there is one. -/
theorem OpenFile.read_some (file : OpenFile) (len : Nat) (hlen : 0 < len) (hreads : none ∉ file.reads) :
    ∃ k reads, file.read len = (some (file.rest.take k), { file with
        pos := file.pos + (file.rest.take k).length, reads := reads }) ∧
      0 < k ∧ k ≤ len ∧ none ∉ reads := by
  unfold OpenFile.read
  cases hnext : file.reads with
  | nil => exact ⟨len, [], by simp only [← hnext]; rfl, hlen, Nat.le_refl _, by simp⟩
  | cons r reads =>
    rw [hnext, List.mem_cons, not_or] at hreads
    cases r with
    | none => exact absurd rfl hreads.1
    | some n => exact ⟨min len (max 1 n), reads, rfl, by omega, by omega, hreads.2⟩

/-- What a `read` takes and what it leaves are what was left. -/
theorem OpenFile.take_rest (file : OpenFile) (k : Nat) (reads : List (Option Nat)) :
    file.rest.take k ++ OpenFile.rest { file with pos := file.pos + (file.rest.take k).length, reads := reads } =
      file.rest := by
  have hleft : OpenFile.rest { file with pos := file.pos + (file.rest.take k).length, reads := reads } =
      file.rest.drop (file.rest.take k).length := by
    rw [OpenFile.rest, OpenFile.rest, List.drop_drop]
  rw [hleft]
  exact (List.prefix_append_drop (List.take_prefix k file.rest)).symm

/-- With reads and writes succeeding the rest of the file is copied up to the length. -/
theorem copyLoop_copies (noBuffering : Bool) (turns : Nat) (file : OpenFile) (len : Int) (out : Output)
    (hreads : none ∉ file.reads) (hwrites : TakesWrites turns out) (hturns : file.rest.length < turns) :
    (copyLoop noBuffering turns file len out).2.sent = out.sent ++ file.rest.take len.toNat := by
  induction turns generalizing file len out with
  | zero => omega
  | succ turns ih =>
    rw [copyLoop]
    by_cases hlen : 0 < len
    swap
    · rw [if_neg hlen, show len.toNat = 0 by omega, List.take_zero, List.append_nil]
    rw [if_pos hlen]
    dsimp only
    obtain ⟨toRead, htoRead⟩ : ∃ toRead : Nat, toRead =
        if len < ((if noBuffering then 1 else MG_BUF_LEN : Nat) : Int) then len.toNat
        else if noBuffering then 1 else MG_BUF_LEN := ⟨_, rfl⟩
    have hbound : 0 < toRead ∧ toRead ≤ MG_BUF_LEN ∧ toRead ≤ len.toNat := by
      have hbuf : MG_BUF_LEN = 8192 := rfl
      rw [htoRead]
      cases noBuffering
      · simp only [Bool.false_eq_true, if_false]
        split_ifs <;> omega
      · simp only [if_true]
        split_ifs <;> omega
    rw [← htoRead]
    obtain ⟨k, reads, hread, hk, hkle, hreads'⟩ := file.read_some toRead hbound.1 hreads
    rw [hread]
    dsimp only
    by_cases hnil : file.rest.take k = []
    · have hrest : file.rest = [] := by
        rcases List.take_eq_nil_iff.mp hnil with h | h
        · omega
        · exact h
      rw [if_pos hnil, hrest]
      simp
    · rw [if_neg hnil]
      have hshort : (file.rest.take k).length ≤ k ∧ (file.rest.take k).length ≤ file.rest.length := by
        rw [List.length_take]
        omega
      have hfits : (file.rest.take k).length ≤ INT_MAX := by
        have hmax : MG_BUF_LEN ≤ INT_MAX := by decide
        omega
      obtain ⟨hall, hnext⟩ := hwrites.1 _ hfits
      have hsent := mgWrite_sent out _ hall
      generalize mgWrite out (file.rest.take k) = result at hall hnext hsent
      obtain ⟨numWritten, out'⟩ := result
      dsimp only at hall hnext hsent ⊢
      rw [if_neg (not_not.mpr hall)]
      obtain ⟨file', hfile'⟩ : ∃ file' : OpenFile, file' = { file with
          pos := file.pos + (file.rest.take k).length, reads := reads } := ⟨_, rfl⟩
      have hrest' : file'.rest = file.rest.drop (file.rest.take k).length := by
        rw [hfile', OpenFile.rest, OpenFile.rest, List.drop_drop]
      have hpos := List.length_pos_of_ne_nil hnil
      rw [← hfile', ih file' _ out' (by rw [hfile']; exact hreads') hnext
        (by rw [hrest', List.length_drop]; omega), hsent, hrest', List.append_assoc]
      congr 1
      obtain ⟨m, hm⟩ : ∃ m, m = (file.rest.take k).length := ⟨_, rfl⟩
      have htake : file.rest.take k = file.rest.take m := by
        rw [hm, List.length_take, ← List.take_eq_take_min]
      rw [← hm] at hall ⊢
      rw [htake, hall, show (len - (m : Int)).toNat = len.toNat - m by omega]
      calc file.rest.take m ++ (file.rest.drop m).take (len.toNat - m) =
          file.rest.take (m + (len.toNat - m)) := List.take_add.symm
        _ = file.rest.take len.toNat := by rw [show m + (len.toNat - m) = len.toNat by omega]

/-- On a connection without a throttle writing does not look at what was sent before. -/
theorem takesWrites_sent (n : Nat) (out : Output) (sent : List Byte) (hthrottle : out.throttle = 0)
    (h : TakesWrites n out) : TakesWrites n { out with sent := sent } := by
  have hmgWrite (o : Output) (buf : List Byte) (s : List Byte) (ho : o.throttle = 0)
      (hbuf : buf.length ≤ INT_MAX) :
      (mgWrite { o with sent := s } buf).1 = (mgWrite o buf).1 ∧ (mgWrite o buf).2.throttle = 0 ∧
        ∃ s', (mgWrite { o with sent := s } buf).2 = { (mgWrite o buf).2 with sent := s' } := by
    have hplain : ¬ 0 < o.throttle := by omega
    simp only [mgWrite, if_neg (Nat.not_lt.mpr hbuf), hplain, if_false, pushAll]
    split_ifs
    all_goals exact ⟨trivial, ho, _, rfl⟩
  have htime (o : Output) (s : List Byte) (ho : o.throttle = 0) :
      Output.time { o with sent := s } = (o.time.1, { o.time.2 with sent := s }) ∧
        o.time.2.throttle = 0 := by
    obtain ⟨_, _, _, _, _, _, clock⟩ := o
    cases clock with
    | nil => exact ⟨rfl, ho⟩
    | cons t ts => exact ⟨rfl, ho⟩
  induction n generalizing out sent with
  | zero => trivial
  | succ n ih =>
    refine ⟨?_, ?_⟩
    · intro buf hbuf
      obtain ⟨hcount, hkept, s', hout⟩ := hmgWrite out buf sent hthrottle hbuf
      obtain ⟨hall, hnext⟩ := h.1 buf hbuf
      rw [hcount, hout]
      exact ⟨hall, ih _ s' hkept hnext⟩
    · obtain ⟨hclock, hkept⟩ := htime out sent hthrottle
      rw [hclock]
      exact ih _ sent hkept h.2

/-- The bytes of a file from an offset, clamped to its size, on. -/
def fileRange (content : List Byte) (offset len : Int) : List Byte :=
  (content.drop (min (max offset 0) content.length).toNat).take len.toNat

theorem sanityOffset_clamped (size : Nat) (offset : Int) (hmax : offset ≤ INT64_MAX) :
    sanityOffset size offset = (min (max offset 0) size).toNat := by
  have hconst : (0 : Int) ≤ INT64_MAX := by decide
  unfold sanityOffset
  dsimp only
  split_ifs <;> omega

/-- The copy loop behind what was sent by `sendfile`. -/
theorem sendFileData_from (noBuffering : Bool) (file : OpenFile) (offset : Nat) (len : Int) (out : Output)
    (e : SendfileEnd) (hfresh : file.pos = 0) (hreads : none ∉ file.reads)
    (hwrites : TakesWrites (file.content.length + 1) { out with sent := out.sent ++ e.sent })
    (he : SendfileStops file.content offset len [] e) :
    (copyLoop noBuffering (file.content.length + 1)
      (if 0 < e.sfOffs then { file with pos := e.sfOffs } else file) e.len
      { out with sent := out.sent ++ e.sent }).2.sent =
        out.sent ++ (file.content.drop offset).take len.toNat := by
  obtain ⟨f, hf⟩ : ∃ f : OpenFile, f = if 0 < e.sfOffs then { file with pos := e.sfOffs } else file :=
    ⟨_, rfl⟩
  have hrest : f.rest = file.content.drop e.sfOffs ∧ f.reads = file.reads := by
    rw [hf]
    split_ifs with hpos
    · exact ⟨rfl, rfl⟩
    · rw [OpenFile.rest, hfresh, show e.sfOffs = 0 by omega]
      exact ⟨rfl, rfl⟩
  have hcopied := copyLoop_copies noBuffering (file.content.length + 1) f e.len
    { out with sent := out.sent ++ e.sent } (by rw [hrest.2]; exact hreads) hwrites
    (by rw [hrest.1, List.length_drop]; omega)
  have hle := he.le
  have hlen := he.len
  have hnonneg := he.nonneg
  rw [← hf, hcopied, hrest.1]
  dsimp only
  rw [he.sent, List.nil_append, List.append_assoc]
  congr 1
  have hsplit : len.toNat = (e.sfOffs - offset) + e.len.toNat := by omega
  rw [hsplit, List.take_add, List.drop_drop, show offset + (e.sfOffs - offset) = e.sfOffs by omega]

section
variable (file : OpenFile) (offset len : Int) (noBuffering : Bool) (results : List Int)
variable (hoffset : offset ≤ INT64_MAX) (hfresh : file.pos = 0) (hsize : file.size = file.content.length)
variable (hreads : none ∉ file.reads)
variable (hresults : SendfileResults file.content results 0 (sanityOffset file.size offset) len)
include hoffset hfresh hsize hreads hresults

theorem sendFileData_fileRange (conn : SendConn)
    (hwrites : TakesWrites (file.content.length + 1) conn.out) :
    (sendFileData conn file offset len noBuffering results true).2.2.sent =
      conn.out.sent ++ fileRange file.content offset len := by
  have hclamped : (min (max offset 0) file.content.length).toNat = sanityOffset file.size offset := by
    rw [sanityOffset_clamped _ _ hoffset, hsize]
  rw [sendFileData, fileRange, hclamped]
  dsimp only
  by_cases hlen : 0 < len
  swap
  · rw [if_neg hlen, show len.toNat = 0 by omega, List.take_zero, List.append_nil]
  rw [if_pos hlen]
  by_cases hfast : (!conn.ssl && conn.out.throttle == 0 &&
      mgStrcasecmp conn.allowSendfileCall (ascii "yes") == 0) = true
  · rw [if_pos hfast]
    have hthrottle : conn.out.throttle = 0 := by
      simp only [Bool.and_eq_true, beq_iff_eq] at hfast
      exact hfast.1.2
    have hstops := sendfileLoop_stops file.content results 0 _ len [] hlen.le hresults
    generalize sendfileLoop file.content results 0 (sanityOffset file.size offset) len [] = e at hstops
    by_cases hreturned : e.returned = true
    · rw [if_pos hreturned]
      dsimp only
      rw [hstops.sent, List.nil_append]
      congr 1
      have hle := hstops.le
      have hsum := hstops.len
      rcases hstops.returned hreturned with hzero | hend
      · rw [show e.sfOffs - sanityOffset file.size offset = len.toNat by omega]
      · have hnonneg := hstops.nonneg
        rw [List.take_of_length_le (by rw [List.length_drop]; omega),
          List.take_of_length_le (by rw [List.length_drop]; omega)]
    · rw [if_neg hreturned, if_neg (by simp)]
      exact sendFileData_from noBuffering file _ len conn.out e hfresh hreads
        (takesWrites_sent _ _ _ hthrottle hwrites) hstops
  · -- without `sendfile` the copy loop starts at the offset
    have hstart : SendfileStops file.content (sanityOffset file.size offset) len []
        ⟨false, sanityOffset file.size offset, len, []⟩ :=
      ⟨Nat.le_refl _, rfl, hlen.le, by simp, fun h => (by cases h)⟩
    rw [if_neg hfast, if_neg (by simp), if_neg (by simp)]
    exact sendFileData_from noBuffering file _ len conn.out _ hfresh hreads
      (by rw [List.append_nil]; exact hwrites) hstart

/-- Whatever `sendfile` returns, the bytes of the file from the offset on are sent once and in order, just as
they are without it. -/
theorem sendFileData_sends (conn : SendConn) (hwrites : TakesWrites (file.content.length + 1) conn.out) :
    (sendFileData conn file offset len noBuffering results true).2.2.sent =
        conn.out.sent ++ fileRange file.content offset len ∧
      (sendFileData conn file offset len noBuffering results true).2.2.sent =
        (sendFileData { conn with allowSendfileCall := ascii "no" } file offset len noBuffering results
          true).2.2.sent := by
  have hsent (c : SendConn) (hc : TakesWrites (file.content.length + 1) c.out) :=
    sendFileData_fileRange file offset len noBuffering results hoffset hfresh hsize hreads hresults c hc
  rw [hsent conn hwrites, hsent { conn with allowSendfileCall := ascii "no" } hwrites]
  exact ⟨rfl, rfl⟩

end

/-- Two bytes are sent by `sendfile`, which then fails; the others are copied one by one. -/
theorem sendFileData_sends_partial :
    (sendFileData ⟨false, ascii "yes", ⟨List.replicate 9 (.accept INT_MAX), [], 0, 0, 0, 0, []⟩⟩
      ⟨ascii "abcdef", 6, 0, [some 1]⟩ 1 INT64_MAX true [2, -1] true).2.2.sent = ascii "bcdef" := by
  refine (sendFileData_sends _ 1 INT64_MAX true [2, -1] (by decide) rfl rfl (by decide)
    ⟨fun _ => ⟨by decide, by decide, ?_⟩, fun h => ?_⟩ _ (takesWrites_accepting _ 9 _ (by decide) rfl rfl)).1
  · exact ⟨fun h => absurd h (by decide), fun h => absurd h (by decide)⟩
  · exact absurd h (by decide)

end CivetWeb
