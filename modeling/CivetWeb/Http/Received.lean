import CivetWeb.Http.Accepted

namespace CivetWeb

/-! The parser reads nothing behind the NUL that closes a head, and it moves none of
the bytes there. -/

section Guard
variable (p : Byte → Bool) (s rest : List Byte)

theorem takeWhile_nul (hp : p NUL = false) (hs : NUL ∈ s) :
    (s ++ rest).takeWhile p = s.takeWhile p := by
  obtain ⟨u, v, rfl⟩ := List.append_of_mem hs
  rw [List.append_assoc, List.cons_append]
  exact Scan.takeWhile_guard p u NUL _ _ hp

theorem dropWhile_nul (hp : p NUL = false) (hs : NUL ∈ s) :
    (s ++ rest).dropWhile p = s.dropWhile p ++ rest ∧ NUL ∈ s.dropWhile p := by
  obtain ⟨u, v, rfl⟩ := List.append_of_mem hs
  have hguard (t : List Byte) := Scan.dropWhile_guard p u NUL t hp
  constructor
  · rw [List.append_assoc, List.cons_append, hguard (v ++ rest), hguard v, List.append_assoc]
  · obtain ⟨w, hw⟩ := Scan.dropWhile_suffix p u (NUL :: v)
    rw [← List.takeWhile_append_dropWhile (p := p) (l := u ++ NUL :: v)] at hs
    rcases List.mem_append.mp hs with h | h
    · have := Scan.takeWhile_all p _ NUL h
      rw [hp] at this
      cases this
    · exact h

theorem tail_nul (hs : NUL ∈ s) :
    deref (s ++ rest) = deref s ∧
      (deref s ≠ NUL → (s ++ rest).tail = s.tail ++ rest ∧ NUL ∈ s.tail) := by
  cases s with
  | nil => cases hs
  | cons c s =>
    refine ⟨rfl, fun hc => ⟨rfl, ?_⟩⟩
    rcases List.mem_cons.mp hs with h | h
    · exact absurd h.symm hc
    · exact h

end Guard

/-- A step with `rest` added behind what it leaves. -/
def HeaderStep.append (step : HeaderStep) (rest : List Byte) : HeaderStep :=
  match step with
  | .endOfHeaders => .endOfHeaders
  | .invalid => .invalid
  | .field h written left stop => .field h written (left ++ rest) stop

theorem headerStep_append (buf rest : List Byte) (hbuf : NUL ∈ buf) :
    headerStep (buf ++ rest) = (headerStep buf).append rest ∧
      ∀ h written left stop, headerStep buf = .field h written left stop →
        NUL ∈ left ∧ written.length + left.length = buf.length := by
  have hname := takeWhile_nul nameByte buf rest rfl hbuf
  obtain ⟨h1, m1⟩ := dropWhile_nul nameByte buf rest rfl hbuf
  have l1 := congrArg List.length (List.takeWhile_append_dropWhile (p := nameByte) (l := buf))
  obtain ⟨d1, hd1⟩ : ∃ d1, d1 = buf.dropWhile nameByte := ⟨_, rfl⟩
  rw [← hd1] at h1 m1 l1
  have hspaces := takeWhile_nul (· == SP) d1 rest rfl m1
  obtain ⟨h2, m2⟩ := dropWhile_nul (· == SP) d1 rest rfl m1
  have l2 := congrArg List.length (List.takeWhile_append_dropWhile (p := (· == SP)) (l := d1))
  obtain ⟨d2, hd2⟩ : ∃ d2, d2 = d1.dropWhile (· == SP) := ⟨_, rfl⟩
  rw [← hd2] at h2 m2 l2
  obtain ⟨t2, n2⟩ := tail_nul d2 rest m2
  unfold headerStep
  simp only [h1, ← hd1, hname, hspaces, h2, ← hd2, t2]
  by_cases hempty : buf.takeWhile nameByte = []
  · simp [hempty, HeaderStep.append]
  by_cases hcolon : deref d2 = COLON
  swap
  · simp [hempty, hcolon, HeaderStep.append]
  obtain ⟨t2', m2'⟩ := n2 (by rw [hcolon]; decide)
  have l2' : d2.length = d2.tail.length + 1 := by
    cases d2 with
    | nil => cases m2
    | cons c d2 => rfl
  have hblanks := takeWhile_nul isblank d2.tail rest rfl m2'
  obtain ⟨h3, m3⟩ := dropWhile_nul isblank d2.tail rest rfl m2'
  have l3 := congrArg List.length (List.takeWhile_append_dropWhile (p := isblank) (l := d2.tail))
  obtain ⟨d3, hd3⟩ : ∃ d3, d3 = d2.tail.dropWhile isblank := ⟨_, rfl⟩
  rw [← hd3] at h3 m3 l3
  have hvalue := takeWhile_nul valueByte d3 rest rfl m3
  obtain ⟨h4, m4⟩ := dropWhile_nul valueByte d3 rest rfl m3
  have l4 := congrArg List.length (List.takeWhile_append_dropWhile (p := valueByte) (l := d3))
  obtain ⟨d4, hd4⟩ : ∃ d4, d4 = d3.dropWhile valueByte := ⟨_, rfl⟩
  rw [← hd4] at h4 m4 l4
  obtain ⟨t4, n4⟩ := tail_nul d4 rest m4
  have l4' : d4.length = d4.tail.length + 1 := by
    cases d4 with
    | nil => cases m4
    | cons c d4 => rfl
  simp only [List.length_append] at l1 l2 l3 l4
  simp only [hempty, hcolon, t2', hblanks, h3, ← hd3, hvalue, h4, ← hd4, t4, if_false, ne_eq,
    not_true_eq_false]
  by_cases hcr : deref d4 = CR
  · obtain ⟨t4', m4'⟩ := n4 (by rw [hcr]; decide)
    obtain ⟨t5, n5⟩ := tail_nul d4.tail rest m4'
    simp only [hcr, if_true, t4', t5]
    by_cases hlf : deref d4.tail = LF
    · obtain ⟨t5', m5'⟩ := n5 (by rw [hlf]; decide)
      have l5 : d4.tail.length = d4.tail.tail.length + 1 := by
        cases hd : d4.tail with
        | nil => rw [hd] at m4'; cases m4'
        | cons c t => rfl
      obtain ⟨t6, -⟩ := tail_nul d4.tail.tail rest m5'
      simp only [hlf, not_true_eq_false, if_false, t5', t6]
      refine ⟨rfl, fun h written left stop heq => ?_⟩
      cases heq
      refine ⟨m5', ?_⟩
      simp only [List.length_append, zeros, List.length_replicate]
      omega
    · simp [hlf, HeaderStep.append]
  simp only [hcr, if_false]
  by_cases hlf : deref d4 = LF
  · obtain ⟨t4', m4'⟩ := n4 (by rw [hlf]; decide)
    obtain ⟨t5, -⟩ := tail_nul d4.tail rest m4'
    simp only [hlf, if_true, t4', t5]
    refine ⟨rfl, fun h written left stop heq => ?_⟩
    cases heq
    refine ⟨m4', ?_⟩
    simp only [List.length_append, zeros, List.length_replicate]
    omega
  · simp only [hlf, if_false]
    refine ⟨rfl, fun h written left stop heq => ?_⟩
    cases heq
    refine ⟨m4, ?_⟩
    simp only [List.length_append, zeros, List.length_replicate]
    omega

theorem headersLoop_append (n : Nat) (buf rest : List Byte) (hbuf : NUL ∈ buf) :
    headersLoop n (buf ++ rest) =
        { headersLoop n buf with rest := (headersLoop n buf).rest ++ rest } ∧
      (headersLoop n buf).written.length + (headersLoop n buf).rest.length = buf.length := by
  induction n generalizing buf with
  | zero => exact ⟨rfl, by simp [headersLoop]⟩
  | succ n ih =>
    obtain ⟨hstep, hfield⟩ := headerStep_append buf rest hbuf
    unfold headersLoop
    rw [hstep]
    cases hs : headerStep buf with
    | endOfHeaders => exact ⟨rfl, by simp⟩
    | invalid => exact ⟨rfl, by simp⟩
    | field h written left stop =>
      obtain ⟨hnul, hlen⟩ := hfield h written left stop hs
      obtain ⟨hnext, hnextlen⟩ := ih left hnul
      simp only [HeaderStep.append]
      cases stop with
      | true => exact ⟨rfl, hlen⟩
      | false =>
        simp only [Bool.false_eq_true, if_false, hnext, List.length_append, true_and]
        omega

theorem skipWord_append (buf rest : List Byte) (eol : Bool) (hbuf : NUL ∈ buf) :
    skipToEndOfWordAndTerminate (buf ++ rest) eol =
        (skipToEndOfWordAndTerminate buf eol).map (fun r => (r.1, r.2.1, r.2.2 ++ rest)) ∧
      ∀ w n next, skipToEndOfWordAndTerminate buf eol = some (w, n, next) →
        NUL ∈ next ∧ w.length + n + next.length = buf.length := by
  have hword := takeWhile_nul wordByte buf rest rfl hbuf
  obtain ⟨h1, m1⟩ := dropWhile_nul wordByte buf rest rfl hbuf
  obtain ⟨d1, hd1⟩ : ∃ d1, d1 = buf.dropWhile wordByte := ⟨_, rfl⟩
  have l1 := congrArg List.length (List.takeWhile_append_dropWhile (p := wordByte) (l := buf))
  rw [← hd1] at h1 m1 l1
  obtain ⟨t1, n1⟩ := tail_nul d1 rest m1
  unfold skipToEndOfWordAndTerminate
  simp only [hword, h1, ← hd1, t1]
  by_cases hstuck :
      (if eol = true then deref d1 != CR && deref d1 != LF else deref d1 != SP) = true
  · simp [hstuck]
  have hne : deref d1 ≠ NUL := by
    intro h
    rw [h] at hstuck
    cases eol <;> exact hstuck rfl
  obtain ⟨t1', m1'⟩ := n1 hne
  obtain ⟨h2, m2⟩ := dropWhile_nul isspace d1.tail rest rfl m1'
  obtain ⟨t2, -⟩ := tail_nul (d1.tail.dropWhile isspace) rest m2
  obtain ⟨t, ht⟩ := List.dropWhile_suffix (l := d1.tail) isspace
  have hle : (d1.tail.dropWhile isspace).length ≤ d1.length := by
    have := congrArg List.length ht
    simp only [List.length_append, List.length_tail] at this
    omega
  have hsub : (d1 ++ rest).length - (d1.tail.dropWhile isspace ++ rest).length =
      d1.length - (d1.tail.dropWhile isspace).length := by
    simp only [List.length_append]
    omega
  rw [if_neg hstuck, if_neg hstuck, t1', h2, t2, hsub]
  by_cases hgraph : (!eol && !isgraph (deref (d1.tail.dropWhile isspace))) = true
  · simp [hgraph]
  · rw [if_neg hgraph, if_neg hgraph]
    refine ⟨rfl, fun w n next h => ?_⟩
    cases h
    refine ⟨m2, ?_⟩
    simp only [List.length_append] at l1
    omega

/-- Bytes behind the NUL neither change the parse nor are changed by it. -/
theorem parseRequestText_append (text rest : List Byte) (htext : NUL ∈ text) :
    parseRequestText (text ++ rest) =
        (parseRequestText text).map (fun r => (r.1, r.2 ++ rest)) ∧
      ∀ info buf, parseRequestText text = some (info, buf) → buf.length = text.length := by
  obtain ⟨h1, f1⟩ := skipWord_append text rest false htext
  unfold parseRequestText
  rw [h1]
  cases hm : skipToEndOfWordAndTerminate text false with
  | none => exact ⟨rfl, fun _ _ h => by cases h⟩
  | some r1 =>
    obtain ⟨method, n1, p1⟩ := r1
    obtain ⟨m1, l1⟩ := f1 method n1 p1 hm
    obtain ⟨h2, f2⟩ := skipWord_append p1 rest false m1
    simp only [Option.map_some, Option.bind_eq_bind, Option.bind_some, h2]
    cases hu : skipToEndOfWordAndTerminate p1 false with
    | none => exact ⟨rfl, fun _ _ h => by cases h⟩
    | some r2 =>
      obtain ⟨uri, n2, p2⟩ := r2
      obtain ⟨m2, l2⟩ := f2 uri n2 p2 hu
      obtain ⟨h3, f3⟩ := skipWord_append p2 rest true m2
      simp only [Option.map_some, Option.bind_some, h3]
      cases hv : skipToEndOfWordAndTerminate p2 true with
      | none => exact ⟨rfl, fun _ _ h => by cases h⟩
      | some r3 =>
        obtain ⟨version, n3, p3⟩ := r3
        obtain ⟨m3, l3⟩ := f3 version n3 p3 hv
        obtain ⟨h4, l4⟩ := headersLoop_append mgMaxHeaders p3 rest m3
        simp only [Option.map_some, Option.bind_some, parseHttpHeaders, h4]
        by_cases hbad : strncmp version (ascii "HTTP/") 5 ≠ 0 ∨
            (!isValidHttpMethod method) = true ∨ (!(headersLoop mgMaxHeaders p3).ok) = true
        · rcases hbad with h | h | h
          · simp [h]
          · simp [h]
          · simp [h]
        · simp only [not_or, not_not, Bool.not_eq_true, Bool.not_eq_false'] at hbad
          obtain ⟨hkey, hknown, hok⟩ := hbad
          simp only [hkey, hknown, hok, ne_eq, not_true_eq_false, Bool.not_true,
            Bool.false_eq_true, if_false]
          refine ⟨by simp, fun info buf h => ?_⟩
          cases h
          simp only [List.length_append, zeros, List.length_replicate]
          omega

/-- A complete head behind white space is accepted with all of its length. -/
theorem parseHttpRequest_of_head (ws pre rest text : List Byte) (len : Nat) (info : RequestInfo)
    (hws : ∀ a ∈ ws, isspace a = true) (hstart : isspace (deref (pre ++ [LF])) = false)
    (hfound : headerLenFrom 0 (pre ++ [LF]) = (pre ++ [LF]).length)
    (hlen : (ws ++ pre ++ [LF]).length ≤ len)
    (htext : parseRequestText (pre ++ NUL :: rest) = some (info, text)) :
    parseHttpRequest (ws ++ pre ++ [LF] ++ rest) len =
      .ok ⟨(ws ++ pre ++ [LF]).length, info, ws ++ text⟩ := by
  obtain ⟨c, t, hc⟩ : ∃ c t, pre ++ [LF] = c :: t := by
    cases pre with
    | nil => exact ⟨LF, [], rfl⟩
    | cons c pre => exact ⟨c, pre ++ [LF], rfl⟩
  have hlens : (ws ++ pre ++ [LF]).length = ws.length + (pre ++ [LF]).length := by simp
  rw [hlens] at hlen ⊢
  have hspace : isspace c = false := by simpa [hc] using hstart
  have hmal : malformedByte c = false := by
    rw [hc, headerLenFrom] at hfound
    by_contra h
    rw [if_pos (by simpa using h)] at hfound
    simp only [List.length_cons] at hfound
    omega
  have hclean : ∀ a, isspace a = false ∧ malformedByte a = false →
      iscntrl a = false ∧ (a == NUL || a == CR || a == LF) = false :=
    byte_all _ (by decide +kernel)
  obtain ⟨hcntrl, hplain⟩ := hclean c ⟨hspace, hmal⟩
  have hbuf : ws ++ pre ++ [LF] ++ rest = ws ++ (pre ++ [LF] ++ rest) := by simp
  have hskip : ((ws ++ pre ++ [LF] ++ rest).take len).takeWhile isspace = ws := by
    obtain ⟨n, hn⟩ : ∃ n, len - ws.length = n + 1 := ⟨len - ws.length - 1, by
      simp only [hc, List.length_cons] at hlen
      omega⟩
    rw [hbuf, List.take_append, List.take_of_length_le (by omega), hn, hc, List.cons_append,
      List.take_succ_cons]
    exact Scan.takeWhile_stop _ _ _ _ hws hspace
  have hfirst : deref (pre ++ [LF] ++ rest) = c := by
    rw [hc]
    rfl
  have hne : headerLenFrom 0 (pre ++ [LF]) ≠ 0 := by
    rw [hfound, hc, List.length_cons]
    omega
  have hscan : getHttpHeaderLen (pre ++ [LF] ++ rest) (len - ws.length) = (pre ++ [LF]).length := by
    rw [getHttpHeaderLen, List.take_append, List.take_of_length_le (by omega),
      headerLenFrom_append 0 _ _ hne, hfound]
  have hset : (pre ++ [LF] ++ rest).set ((pre ++ [LF]).length - 1) NUL = pre ++ NUL :: rest := by
    simp
  have hpos : 0 < (pre ++ [LF]).length := by simp
  have hpre : deref (pre ++ NUL :: rest) = c ∨ pre = [] := by
    cases pre with
    | nil => exact Or.inr rfl
    | cons b pre =>
      refine Or.inl ?_
      rw [List.cons_append, List.cons.injEq] at hc
      exact hc.1
  have hpre' : deref (pre ++ NUL :: rest) = c := by
    rcases hpre with h | h
    · exact h
    · exact absurd hfound (by rw [h]; decide)
  unfold parseHttpRequest
  simp only [hskip]
  rw [hbuf, List.drop_left, List.take_left, parseRequestHead, if_neg (by omega), hfirst, hcntrl,
    if_neg Bool.false_ne_true, hscan]
  simp only [Int.toNat_natCast, hset, hpre', hplain, htext, Bool.false_eq_true, if_false]
  rw [if_neg (by omega)]
  dsimp only
  rw [Nat.add_comm]

/-- An accepted head is accepted from the bytes up to its end alone, and the bytes
behind it stay as they are. -/
theorem parseHttpRequest_received (recv more : List Byte) (r : ParsedRequest)
    (h : parseHttpRequest (recv ++ more) (recv ++ more).length = .ok r)
    (hlen : r.length ≤ recv.length) :
    (∃ buf, ∀ len, recv.length ≤ len →
      parseHttpRequest recv len = .ok ⟨r.length, r.info, buf⟩) ∧
      r.buf.drop r.length = (recv ++ more).drop r.length ∧
      r.buf.length = (recv ++ more).length := by
  obtain ⟨ws, pre, rest, text, hbuf, hws, hstart, hrlen, -, hfound, -, -, htext, hrbuf⟩ :=
    parseHttpRequest_ok _ _ r h
  obtain ⟨left, hleft⟩ : ∃ left, recv = ws ++ pre ++ [LF] ++ left := by
    have hpre : ws ++ pre ++ [LF] <+: recv := by
      apply List.prefix_of_prefix_length_le ⟨rest, hbuf.symm⟩ (List.prefix_append recv more)
      omega
    obtain ⟨left, hl⟩ := hpre
    exact ⟨left, hl.symm⟩
  have hrest : rest = left ++ more := by
    rw [hleft, List.append_assoc _ left] at hbuf
    exact (List.append_cancel_left hbuf).symm
  have happend (t : List Byte) := parseRequestText_append (pre ++ [NUL]) t (by simp)
  have hshape (t : List Byte) : pre ++ NUL :: t = pre ++ [NUL] ++ t := by simp
  rw [hshape, (happend rest).1] at htext
  simp only [Option.map_eq_some_iff, Prod.mk.injEq] at htext
  obtain ⟨⟨info, text0⟩, htext0, hinfo, htext⟩ := htext
  have hlen0 := (happend []).2 info text0 htext0
  dsimp only at hinfo htext
  have hcut : (ws ++ text0).length = r.length := by
    rw [hrlen]
    simp only [List.length_append, List.length_cons, List.length_nil] at hlen0 ⊢
    omega
  refine ⟨?_, ?_, ?_⟩
  · refine ⟨ws ++ (text0 ++ left), fun len hle => ?_⟩
    rw [hleft, hrlen, ← hinfo]
    apply parseHttpRequest_of_head ws pre left _ len info hws hstart hfound
    · rw [hleft] at hle
      simp only [List.length_append] at hle ⊢
      omega
    · rw [hshape, (happend left).1, htext0]
      rfl
  · rw [hrbuf, ← htext, ← List.append_assoc, ← hcut, List.drop_left, hbuf, hcut, hrlen,
      List.drop_left]
  · rw [hrbuf, ← htext, hbuf]
    rw [hrlen] at hcut
    simp only [List.length_append, List.length_cons, List.length_nil] at hcut ⊢
    omega

end CivetWeb
