import CivetWeb.Conn.GetRequest

namespace CivetWeb

/-- An empty line, as `get_http_header_len` looks for it. -/
def HasBlankLine (s : List Byte) : Prop := [LF, LF] <:+: s ∨ [CR, LF, CR, LF] <:+: s

/-- White space with an empty line in it stands in front of the first word. -/
def LeadingBlankLine (stream : List Byte) : Prop := HasBlankLine (stream.takeWhile isspace)

theorem HasBlankLine.mono (s t : List Byte) (h : HasBlankLine s) (hst : s <:+: t) :
    HasBlankLine t := by
  rcases h with h | h
  · exact Or.inl (h.trans hst)
  · exact Or.inr (h.trans hst)

theorem headerLenFrom_hasBlankLine (i : Nat) (b : List Byte) (h : 0 < headerLenFrom i b) :
    HasBlankLine b := by
  induction b generalizing i with
  | nil => simp [headerLenFrom] at h
  | cons c b ih =>
    rw [headerLenFrom] at h
    split_ifs at h with h1 h2 h3
    · omega
    · exact Or.inl (List.isPrefixOf_iff_prefix.mp h2).isInfix
    · exact Or.inr (List.isPrefixOf_iff_prefix.mp h3).isInfix
    · exact (ih (i + 1) h).mono _ _ (List.suffix_cons c b).isInfix

theorem hasBlankLine_headerLenFrom (i : Nat) (b : List Byte)
    (hclean : ∀ a ∈ b, malformedByte a = false) (h : HasBlankLine b) : 0 < headerLenFrom i b := by
  induction b generalizing i with
  | nil => simp [HasBlankLine] at h
  | cons c b ih =>
    have hc : malformedByte c = false := hclean c (by simp)
    rw [headerLenFrom, if_neg (by simp [hc])]
    split_ifs with h2 h3
    · omega
    · omega
    · apply ih
      · intro a ha
        exact hclean a (by simp [ha])
      · rw [List.isPrefixOf_iff_prefix] at h2 h3
        unfold HasBlankLine at h ⊢
        rw [List.infix_cons_iff, List.infix_cons_iff] at h
        exact h.imp (fun h => h.resolve_left h2) (fun h => h.resolve_left h3)

/-- A run of white space that a pattern of white space starts in holds all of it. -/
theorem prefix_of_space_run (pat ws rest : List Byte) (hpat : ∀ a ∈ pat, isspace a = true)
    (hrest : isspace (deref rest) = false) (h : pat <+: ws ++ rest) : pat <+: ws := by
  obtain ⟨t, ht⟩ := h
  rcases List.append_eq_append_iff.mp ht with ⟨u, hu, -⟩ | ⟨u, hu, hr⟩
  · exact ⟨u, hu.symm⟩
  · cases u with
    | nil =>
      rw [List.append_nil] at hu
      exact ⟨[], by rw [hu, List.append_nil]⟩
    | cons c u =>
      have hc : isspace c = true := hpat c (by simp [hu])
      rw [hr, List.cons_append, deref_cons, hc] at hrest
      cases hrest

/-- The scan passes over leading white space that has no empty line in it. -/
theorem headerLenFrom_spaces (i : Nat) (ws rest : List Byte)
    (hws : ∀ a ∈ ws, isspace a = true ∧ malformedByte a = false) (hblank : ¬ HasBlankLine ws)
    (hrest : isspace (deref rest) = false) :
    headerLenFrom i (ws ++ rest) = headerLenFrom (i + ws.length) rest := by
  induction ws generalizing i with
  | nil => rfl
  | cons c ws ih =>
    have hc := (hws c (by simp)).2
    have hskip (pat : List Byte) (hpat : ∀ a ∈ pat, isspace a = true)
        (hno : ¬ pat <:+: c :: ws) : pat.isPrefixOf (c :: (ws ++ rest)) = false := by
      rw [Bool.eq_false_iff]
      intro hp
      rw [List.isPrefixOf_iff_prefix] at hp
      exact hno (prefix_of_space_run pat (c :: ws) rest hpat hrest hp).isInfix
    have h2 := hskip [LF, LF] (by decide) (fun h => hblank (Or.inl h))
    have h3 := hskip [CR, LF, CR, LF] (by decide) (fun h => hblank (Or.inr h))
    have hnext : ¬ HasBlankLine ws :=
      fun h => hblank (h.mono _ _ (List.suffix_cons c ws).isInfix)
    rw [List.cons_append, headerLenFrom, hc, h2, h3, if_neg Bool.false_ne_true,
      if_neg Bool.false_ne_true, if_neg Bool.false_ne_true,
      ih (i + 1) (fun a ha => hws a (by simp [ha])) hnext]
    congr 1
    simp only [List.length_cons]
    omega

/-- The run of white space in front of a head that lies within the received bytes. -/
theorem takeWhile_space_received (recv more ws pre rest : List Byte)
    (hws : ∀ a ∈ ws, isspace a = true) (hstart : isspace (deref (pre ++ [LF])) = false)
    (h : recv = ws ++ pre ++ [LF] ++ rest) : (recv ++ more).takeWhile isspace = ws := by
  obtain ⟨c, t, hc⟩ : ∃ c t, pre ++ [LF] = c :: t := by
    cases pre with
    | nil => exact ⟨LF, [], rfl⟩
    | cons c pre => exact ⟨c, pre ++ [LF], rfl⟩
  rw [hc, deref_cons] at hstart
  have hshape : recv ++ more = ws ++ c :: (t ++ rest ++ more) := by
    rw [h, List.append_assoc ws, hc]
    simp
  rw [hshape]
  exact Scan.takeWhile_stop _ _ _ _ hws hstart

/-- The head that is measured in the received bytes is the one that is parsed out of
the whole buffer, exactly where no empty line stands in front of it. -/
theorem headerLen_parsed (recv stale more : List Byte) (r : ParsedRequest) (k : Int)
    (hk : getHttpHeaderLen (recv ++ stale) recv.length = k) (hpos : 0 < k)
    (h : parseHttpRequest (recv ++ stale) (recv ++ stale).length = .ok r) :
    k = r.length ↔ ¬ LeadingBlankLine (recv ++ more) := by
  obtain ⟨ws, pre, rest, text, hbuf, hws, hstart, hrlen, -, hfound, hclean, -, -, -⟩ :=
    parseHttpRequest_ok _ _ r h
  rw [getHttpHeaderLen, List.take_left] at hk
  subst hk
  obtain ⟨pre', rest', hrecv, hlen', hself', hclean', -⟩ := headerLenFrom_split 0 recv hpos
  have hle' : headerLenFrom 0 recv ≤ recv.length := by simpa using headerLenFrom_le 0 recv
  constructor
  · intro heq hblank
    have hpre : ws ++ pre ++ [LF] <+: recv := by
      apply List.prefix_of_prefix_length_le ⟨rest, hbuf.symm⟩ (List.prefix_append recv stale)
      rw [← hrlen]
      omega
    obtain ⟨left, hleft⟩ := hpre
    rw [LeadingBlankLine, takeWhile_space_received recv more ws pre left hws hstart hleft.symm]
      at hblank
    have hwsclean : ∀ a ∈ ws, malformedByte a = false := by
      have hin : ws <+: pre' ++ [LF] := by
        have hfront : ws <+: recv := ⟨pre ++ [LF] ++ left, by rw [← hleft]; simp⟩
        apply List.prefix_of_prefix_length_le hfront
        · exact ⟨rest', hrecv.symm⟩
        · have : (ws.length : Int) ≤ (pre' ++ [LF]).length := by
            rw [hrlen] at heq
            simp only [List.length_append] at heq hlen' ⊢
            push_cast at heq hlen' ⊢
            omega
          omega
      intro a ha
      rcases List.mem_append.mp (hin.subset ha) with ha | ha
      · exact hclean' a ha
      · rw [List.mem_singleton.mp ha]
        rfl
    have hfirst := hasBlankLine_headerLenFrom 0 ws hwsclean hblank
    have hsame : headerLenFrom 0 recv = headerLenFrom 0 ws := by
      rw [← hleft, List.append_assoc, List.append_assoc]
      exact headerLenFrom_append 0 ws _ (by omega)
    have hle := headerLenFrom_le 0 ws
    rw [hrlen] at heq
    simp only [List.length_append, List.length_cons, List.length_nil] at heq
    omega
  · intro hblank
    have hwsrun : ws = (recv ++ stale).takeWhile isspace := by
      have := takeWhile_space_received (recv ++ stale) [] ws pre rest hws hstart hbuf
      rw [List.append_nil] at this
      exact this.symm
    have hdrop : recv.dropWhile isspace ≠ [] := by
      intro hnil
      have hall := List.dropWhile_eq_nil_iff.mp hnil
      apply hblank
      apply (headerLenFrom_hasBlankLine 0 recv hpos).mono
      rw [List.takeWhile_append_of_pos hall]
      exact (List.prefix_append _ _).isInfix
    obtain ⟨c, t, hct⟩ := List.exists_cons_of_ne_nil hdrop
    have hsplit : recv = recv.takeWhile isspace ++ c :: t := by
      rw [← hct, List.takeWhile_append_dropWhile]
    have hcspace : isspace c = false := by
      apply Scan.head_dropWhile isspace recv
      rw [hct]
      rfl
    have hrun (tail : List Byte) : (recv ++ tail).takeWhile isspace = recv.takeWhile isspace := by
      conv_lhs => rw [hsplit, List.append_assoc, List.cons_append]
      exact Scan.takeWhile_stop _ _ _ _ (Scan.takeWhile_all isspace recv) hcspace
    rw [LeadingBlankLine, hrun, ← hrun stale, ← hwsrun] at hblank
    have hwsrecv : ws <+: recv := by
      rw [hwsrun, hrun]
      exact List.takeWhile_prefix isspace
    have hhead : pre' ++ [LF] <+: recv := ⟨rest', hrecv.symm⟩
    have hwsclean : ∀ a ∈ ws, isspace a = true ∧ malformedByte a = false := by
      intro a ha
      refine ⟨hws a ha, ?_⟩
      rcases Nat.le_total ws.length (pre' ++ [LF]).length with hle | hle
      · have hin := List.prefix_of_prefix_length_le hwsrecv hhead hle
        rcases List.mem_append.mp (hin.subset ha) with ha | ha
        · exact hclean' a ha
        · rw [List.mem_singleton.mp ha]
          rfl
      · have hin := List.prefix_of_prefix_length_le hhead hwsrecv hle
        have hfirst : HasBlankLine (pre' ++ [LF]) := by
          apply headerLenFrom_hasBlankLine 0
          rw [hself', ← hlen']
          exact hpos
        exact absurd (hfirst.mono _ _ hin.isInfix) hblank
    have hmeasured : headerLenFrom 0 (ws ++ (pre ++ [LF])) = r.length := by
      have hshift := headerLenFrom_shift 0 ws.length (pre ++ [LF]) (by
        rw [hfound]
        simp only [List.length_append, List.length_cons]
        omega)
      rw [headerLenFrom_spaces 0 ws _ hwsclean hblank hstart, hshift, hfound, hrlen]
      simp only [List.length_append]
      push_cast
      ring
    have hrpos : 0 < r.length := by
      rw [hrlen]
      simp
    have hwhole : headerLenFrom 0 (recv ++ stale) = r.length := by
      rw [hbuf, List.append_assoc ws, headerLenFrom_append 0 _ rest (by omega), hmeasured]
    rw [← hwhole]
    exact (headerLenFrom_append 0 recv stale (by omega)).symm

/-- What the connection holds of a request whose head was measured as it was parsed:
`r` is the parse, `c1` the connection in front of it. -/
structure HeadMeasured (c1 c : Conn) (r : ParsedRequest) : Prop where
  requestLen : c.requestLen = r.length
  requestLen_le : c.requestLen ≤ c.dataLen
  received : ∃ buf, parseHttpRequest (c1.buf.take c1.dataLen) c1.dataLen =
    .ok ⟨r.length, r.info, buf⟩
  unread : c.unread = c1.stream.drop r.length

/-- The length of the head is the one that was parsed exactly where the client sent no empty line in front of it. -/
theorem RequestRead.measured {conn c c1 : Conn} {r : ParsedRequest} (hread : RequestRead conn c c1 r) :
    HeadMeasured c1 c r ↔ ¬ LeadingBlankLine conn.stream := by
  have hmsg := getMessage_found conn c1 hread.message
  have hlen : c.requestLen = c1.requestLen := by rw [hread.frame]
  have hdata : c.dataLen = c1.dataLen := by rw [hread.frame]
  have hbuf : c.buf = r.buf := by rw [hread.frame]
  have hsock : c.sock = c1.sock := by rw [hread.frame]
  have hzero : c.consumedContent = 0 := by
    rw [hread.frame, hmsg.frame]
    rfl
  obtain ⟨recv, hrecv⟩ : ∃ recv, recv = c1.buf.take c1.dataLen := ⟨_, rfl⟩
  have hsplit : c1.buf = recv ++ c1.buf.drop c1.dataLen := by
    rw [hrecv, List.take_append_drop]
  have hparsed := hread.parsed
  rw [hsplit] at hparsed
  have hrecvlen : recv.length ≤ c1.dataLen := by
    rw [hrecv, List.length_take]
    omega
  have hfound : getHttpHeaderLen (recv ++ c1.buf.drop c1.dataLen) recv.length = c1.requestLen := by
    rw [hmsg.found, getHttpHeaderLen, getHttpHeaderLen, List.take_left, hrecv]
  have hiff := headerLen_parsed recv _ (sockBytes c1.sock) r _ hfound hmsg.pos hparsed
  have hstream : conn.stream = recv ++ sockBytes c1.sock := by
    rw [← hmsg.stream, Conn.stream, hrecv]
  rw [hstream, ← hiff]
  constructor
  · intro hm
    rw [← hlen]
    exact hm.requestLen
  · intro heq
    have hle : r.length ≤ recv.length := by
      have hmax := headerLenFrom_le 0 recv
      rw [getHttpHeaderLen, List.take_left] at hfound
      omega
    obtain ⟨⟨buf, hagain⟩, hkeep, -⟩ := parseHttpRequest_received recv _ r hparsed hle
    refine ⟨hlen.trans heq, ?_, ⟨buf, ?_⟩, ?_⟩
    · rw [hlen, heq, hdata]
      omega
    · rw [← hrecv]
      exact hagain c1.dataLen hrecvlen
    · have hpos : (c.requestLen + (c.consumedContent : Int)).toNat = r.length := by
        rw [hlen, heq, hzero]
        simp
      rw [← hsplit] at hkeep
      rw [Conn.unread, hpos, hbuf, hdata, hsock, Conn.stream, List.drop_take, hkeep, ← List.drop_take,
        ← hrecv, List.drop_append_of_le_length hle]

/-- Of every request that is accepted, the length of the head is the one that was
parsed exactly where the client sent no empty line in front of it. -/
theorem getRequest_requestLen (conn c : Conn) (h : getRequest conn = (none, c)) :
    ∃ c1 r, getMessage conn = (none, c1) ∧
      parseHttpRequest c1.buf c1.buf.length = .ok r ∧ c.requestInfo = r.info ∧
      (HeadMeasured c1 c r ↔ ¬ LeadingBlankLine conn.stream) := by
  obtain ⟨c1, r, hread⟩ := getRequest_read conn c h
  exact ⟨c1, r, hread.message, hread.parsed, by rw [hread.frame], hread.measured⟩

/-- A connection that has read nothing yet, with a buffer of `size` bytes. -/
def freshConn (size : Nat) (sock : List NetEvent) : Conn where
  ssl := false
  domains := [⟨ascii "localhost", ascii "yes", ascii "yes"⟩]
  domCtx := 0
  lsaPort := 80
  sock := sock
  buf := List.replicate size NUL
  dataLen := 0
  requestLen := 0
  contentLen := -1
  consumedContent := 0
  isChunked := 0
  mustClose := false
  handledRequests := 0
  protocolType := 0
  requestInfo := ⟨[], [], [], []⟩
  infoContentLength := -1
  localUri := none

/-- A plain request, with the start of the next one in the same packet. -/
def twoRequests : Conn := freshConn 64 [.data (ascii "GET / HTTP/1.1\r\n\r\nGET /b"), .tryAgain]

theorem getRequest_requestLen_plain :
    ∃ c1 r, getMessage twoRequests = (none, c1) ∧
      parseHttpRequest c1.buf c1.buf.length = .ok r ∧
      (getRequest twoRequests).2.requestInfo = r.info ∧
      (HeadMeasured c1 (getRequest twoRequests).2 r ↔ ¬ LeadingBlankLine twoRequests.stream) :=
  getRequest_requestLen twoRequests (getRequest twoRequests).2 (by decide +kernel)

/-- An empty line in front of the request: four bytes are taken for the head, and the
twenty-two that were parsed start again as the body. -/
def blankRequest : Conn := freshConn 64 [.data (ascii "\r\n\r\nGET / HTTP/1.1\r\n\r\n")]

theorem getRequest_requestLen_blank :
    (getRequest blankRequest).1 = none ∧ (getRequest blankRequest).2.requestLen = 4 ∧
      (parseHttpRequest (getMessage blankRequest).2.buf 64).toOption.map (·.length) = some 22 ∧
      (getRequest blankRequest).2.requestInfo.requestUri = ascii "/" := by
  decide +kernel

end CivetWeb
