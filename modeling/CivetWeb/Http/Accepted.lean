import CivetWeb.Http.Request

namespace CivetWeb

/-- A found head ends in a line feed, holds no malformed byte and is found on its own. -/
theorem headerLenFrom_split (i : Nat) (b : List Byte) (h : 0 < headerLenFrom i b) :
    ∃ pre rest, b = pre ++ [LF] ++ rest ∧ headerLenFrom i b = i + (pre ++ [LF]).length ∧
      headerLenFrom i (pre ++ [LF]) = i + (pre ++ [LF]).length ∧
      (∀ a ∈ pre, malformedByte a = false) ∧ ∃ a, pre.getLast? = some a ∧ (a = CR ∨ a = LF) := by
  induction b generalizing i with
  | nil => simp [headerLenFrom] at h
  | cons c b ih =>
    rw [headerLenFrom] at h ⊢
    split_ifs at h ⊢ with h1 h2 h4
    · omega
    · obtain ⟨t, ht⟩ := List.isPrefixOf_iff_prefix.mp h2
      refine ⟨[LF], t, by simpa using ht.symm, by simp, by simp [headerLenFrom, malformedByte],
        by decide, LF, rfl, Or.inr rfl⟩
    · obtain ⟨t, ht⟩ := List.isPrefixOf_iff_prefix.mp h4
      exact ⟨[CR, LF, CR], t, by simpa using ht.symm, by simp, rfl, by decide, CR, rfl, Or.inl rfl⟩
    · obtain ⟨pre, rest, rfl, hlen, hself, hpre, d, hd, hlast⟩ := ih (i + 1) h
      have shorter (pat : List Byte) (hp : ¬ pat.isPrefixOf (c :: (pre ++ [LF] ++ rest)) = true) :
          ¬ pat.isPrefixOf (c :: (pre ++ [LF])) = true := by
        rw [List.isPrefixOf_iff_prefix] at hp ⊢
        exact fun hq => hp (hq.trans ⟨rest, by simp⟩)
      refine ⟨c :: pre, rest, by simp, ?_, ?_, ?_, d, by simp [List.getLast?_cons, hd], hlast⟩
      · rw [hlen]
        simp only [List.length_append, List.length_cons]
        push_cast
        ring
      · rw [List.cons_append, headerLenFrom, if_neg h1, if_neg (shorter _ h2),
          if_neg (shorter _ h4), hself]
        simp only [List.length_append, List.length_cons]
        push_cast
        ring
      · intro a ha
        rcases List.mem_cons.mp ha with rfl | ha
        · simpa using h1
        · exact hpre a ha

/-- An accepted buffer starts with white space and a complete head, closed by a
NUL for the parser. -/
theorem parseHttpRequest_ok (buf : List Byte) (len : Nat) (r : ParsedRequest)
    (h : parseHttpRequest buf len = .ok r) :
    ∃ ws pre rest text, buf = ws ++ pre ++ [LF] ++ rest ∧ (∀ a ∈ ws, isspace a = true) ∧
      isspace (deref (pre ++ [LF])) = false ∧ r.length = (ws ++ pre ++ [LF]).length ∧
      r.length ≤ len ∧
      headerLenFrom 0 (pre ++ [LF]) = (pre ++ [LF]).length ∧
      (∀ a ∈ pre, malformedByte a = false) ∧ (∃ a, pre.getLast? = some a ∧ (a = CR ∨ a = LF)) ∧
      parseRequestText (pre ++ NUL :: rest) = some (r.info, text) ∧ r.buf = ws ++ text := by
  unfold parseHttpRequest at h
  obtain ⟨ws, hws⟩ : ∃ ws, ws = (buf.take len).takeWhile isspace := ⟨_, rfl⟩
  simp only [← hws] at h
  split at h
  · cases h
  rename_i p hp
  simp only [Except.ok.injEq] at h
  subst h
  have htake : buf.take len = ws ++ (buf.take len).dropWhile isspace := by
    rw [hws, List.takeWhile_append_dropWhile]
  have hlen : ws.length ≤ len := by
    have := congrArg List.length htake
    simp only [List.length_take, List.length_append] at this
    omega
  have hbuf : buf = ws ++ buf.drop ws.length := by
    have hpre : ws <+: buf := by
      have h1 : ws <+: buf.take len := ⟨_, htake.symm⟩
      exact h1.trans (List.take_prefix len buf)
    obtain ⟨t, rfl⟩ := hpre
    simp
  obtain ⟨start, hstart⟩ : ∃ start, start = buf.drop ws.length := ⟨_, rfl⟩
  rw [← hstart] at hp hbuf
  unfold parseRequestHead at hp
  dsimp only at hp
  split_ifs at hp with a1 a2 a3 a4
  split at hp
  · cases hp
  rename_i info text htext
  simp only [Except.ok.injEq] at hp
  subst hp
  obtain ⟨pre, rest, hsplit, hfound, hself, hpre, hlast⟩ :=
    headerLenFrom_split 0 (start.take (len - ws.length)) (by simpa [getHttpHeaderLen] using a3)
  have hn : (getHttpHeaderLen start (len - ws.length)).toNat = (pre ++ [LF]).length := by
    rw [getHttpHeaderLen, hfound]
    simp
  obtain ⟨after, hafter⟩ : ∃ after, after = rest ++ start.drop (len - ws.length) := ⟨_, rfl⟩
  have hs : start = pre ++ [LF] ++ after := by
    rw [hafter, ← List.append_assoc, ← hsplit, List.take_append_drop]
  have hd : (buf.take len).dropWhile isspace = start.take (len - ws.length) := by
    have hcut : buf.take len = ws ++ start.take (len - ws.length) := by
      rw [hbuf, List.take_append, List.take_of_length_le hlen]
    rw [hcut] at htake ⊢
    exact (List.append_cancel_left htake).symm
  have hset : start.set ((pre ++ [LF]).length - 1) NUL = pre ++ NUL :: after := by
    rw [hs]
    simp
  rw [hn, hset] at htext
  have hle : (pre ++ [LF]).length ≤ len - ws.length := by
    have := congrArg List.length hsplit
    simp only [List.length_take, List.length_append] at this ⊢
    omega
  refine ⟨ws, pre, after, text, ?_, ?_, ?_, ?_, ?_, by simpa using hself, hpre, hlast, htext,
    ?_⟩
  · rw [hbuf, hs]
    simp
  · rw [hws]
    exact Scan.takeWhile_all _ _
  · rw [hsplit] at hd
    apply Scan.head_dropWhile isspace (buf.take len)
    rw [hd]
    cases pre <;> simp
  · rw [hn]
    simp only [List.length_append]
    omega
  · have htotal : (pre ++ [LF]).length + ws.length ≤ len := by omega
    simpa [hn] using htotal
  · rw [hbuf]
    simp

/-- A word in front of the closing NUL is taken from the text before it. -/
theorem skipWord_before_nul (pre rest w next : List Byte) (n : Nat) (eol : Bool)
    (h : skipToEndOfWordAndTerminate (pre ++ NUL :: rest) eol = some (w, n, next)) :
    ∃ b ws next', pre = w ++ b :: (ws ++ next') ∧ next = next' ++ NUL :: rest ∧
      (∀ a ∈ w, wordByte a = true) ∧ (if eol then b = CR ∨ b = LF else b = SP) ∧
      (∀ a ∈ ws, isspace a = true) ∧ (∀ a ∈ next'.head?, isspace a = false) ∧
      (eol = false → isgraph (deref next') = true) := by
  obtain ⟨b, ws, hsplit, -, hw, hb, hws, hstop, hgraph⟩ := skipWord_some _ w next n eol h
  have hnul : NUL ∉ w ++ b :: ws := by
    intro hmem
    rcases List.mem_append.mp hmem with hmem | hmem
    · exact absurd (hw NUL hmem) (by decide)
    · rcases List.mem_cons.mp hmem with hmem | hmem
      · cases eol
        · simp only [Bool.false_eq_true, if_false] at hb
          exact absurd (hmem.trans hb) (by decide)
        · simp only [if_true] at hb
          rcases hb with hb | hb <;> exact absurd (hmem.trans hb) (by decide)
      · exact absurd (hws NUL hmem) (by decide)
  have hjoin : pre ++ NUL :: rest = w ++ b :: ws ++ next := by
    rw [hsplit]
    simp
  obtain ⟨next', hpre, hnext⟩ := Scan.split_before NUL pre (w ++ b :: ws) rest next hjoin hnul
  refine ⟨b, ws, next', by simpa using hpre, hnext, hw, hb, hws, ?_, ?_⟩
  · intro a ha
    apply hstop a
    rw [hnext]
    cases next' with
    | nil => simp at ha
    | cons c t => simpa using ha
  · intro heol
    have hg := hgraph heol
    rw [hnext] at hg
    cases next' with
    | nil => exact absurd (show isgraph NUL = true from hg) (by decide)
    | cons c t => simpa using hg

/-- The words and the header section of an accepted head. -/
theorem parseRequestText_some (pre rest text : List Byte) (info : RequestInfo)
    (h : parseRequestText (pre ++ NUL :: rest) = some (info, text)) :
    ∃ ws1 ws2 version b ws3 next,
      pre = info.requestMethod ++ SP :: (ws1 ++ (info.requestUri ++ SP :: (ws2 ++
        (version ++ b :: (ws3 ++ next))))) ∧
      (∀ a ∈ info.requestMethod, wordByte a = true) ∧ (∀ a ∈ info.requestUri, wordByte a = true) ∧
      (∀ a ∈ version, wordByte a = true) ∧ strncmp version (ascii "HTTP/") 5 = 0 ∧
      (b = CR ∨ b = LF) ∧ (∀ a ∈ ws1 ++ ws2 ++ ws3, isspace a = true) ∧
      (∀ a ∈ next.head?, isspace a = false) ∧ info.requestMethod ∈ httpMethods ∧
      (parseHttpHeaders (next ++ NUL :: rest)).ok = true ∧
      info.httpVersion = version.drop 5 ∧
      info.httpHeaders = (parseHttpHeaders (next ++ NUL :: rest)).headers := by
  simp only [parseRequestText, Option.bind_eq_bind, Option.bind_eq_some_iff] at h
  obtain ⟨⟨method, n1, p1⟩, h1, ⟨uri, n2, p2⟩, h2, ⟨version, n3, p3⟩, h3, h⟩ := h
  dsimp only at h2 h3 h
  split_ifs at h with hkey hmethod hok
  simp only [Option.some.injEq, Prod.mk.injEq] at h
  obtain ⟨rfl, -⟩ := h
  obtain ⟨b1, ws1, next1, rfl, rfl, hw1, hb1, hws1, -⟩ := skipWord_before_nul pre rest _ _ _ _ h1
  obtain ⟨b2, ws2, next2, rfl, rfl, hw2, hb2, hws2, -⟩ := skipWord_before_nul next1 rest _ _ _ _ h2
  obtain ⟨b3, ws3, next3, rfl, rfl, hw3, hb3, hws3, hnext, -⟩ :=
    skipWord_before_nul next2 rest _ _ _ _ h3
  simp only [Bool.false_eq_true, if_false] at hb1 hb2
  simp only [if_true] at hb3
  subst hb1 hb2
  refine ⟨ws1, ws2, version, b3, ws3, next3, rfl, hw1, hw2, hw3, by simpa using hkey, hb3, ?_,
    hnext, by simpa [isValidHttpMethod] using hmethod, by simpa using hok, rfl, rfl⟩
  intro a ha
  rcases List.mem_append.mp ha with ha | ha
  · exact (List.mem_append.mp ha).elim (hws1 a) (hws2 a)
  · exact hws3 a ha

end CivetWeb
