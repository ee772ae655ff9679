import CivetWeb.Auth.AuthHeader

namespace CivetWeb

/-! ### `skip_quoted` on its buffer -/

/-- `memmove` of `n` bytes within a buffer. -/
def memmove (buf : List Byte) (dst src n : Nat) : List Byte :=
  buf.take dst ++ ((buf.drop src).take n ++ buf.drop (dst + n))

/-- The bytes from `p` up to `stop` set to NUL. -/
def fillNul (buf : List Byte) (p stop : Nat) : List Byte :=
  buf.take p ++ (List.replicate (stop - p) NUL ++ buf.drop stop)

def strcspn (s reject : List Byte) : Nat := (s.takeWhile fun c => c != NUL && !reject.contains c).length

def strspn (s accept : List Byte) : Nat := (s.takeWhile accept.contains).length

/-- The loop of `skip_quoted` while the byte at `p`, in front of `end_word`, is the quote: the buffer and
the two pointers. -/
def quoteLoop (delimiters : List Byte) (quotechar : Byte) :
    Nat → List Byte → Nat → Nat → List Byte × Nat × Nat
  | 0, buf, p, endWord => (buf, p, endWord)
  | n + 1, buf, p, endWord =>
    if deref (buf.drop p) = quotechar then
      if deref (buf.drop endWord) ≠ NUL then
        let endOff := strcspn (buf.drop (endWord + 1)) delimiters
        quoteLoop delimiters quotechar n (memmove buf p endWord (endOff + 1)) (p + endOff)
          (endWord + endOff + 1)
      else (buf.set p NUL, p, endWord)
    else (buf, p, endWord)

/-- `skip_quoted` for the word at `beginWord`: the buffer, and the pointer behind the word. -/
def skipQuotedAt (buf : List Byte) (beginWord : Nat) (delimiters whitespace : List Byte)
    (quotechar : Byte) : List Byte × Nat :=
  let endWord := beginWord + strcspn (buf.drop beginWord) delimiters
  let (buf, endWord) :=
    if beginWord < endWord then
      let (buf, p, endWord) :=
        quoteLoop delimiters quotechar (buf.length - beginWord + 1) buf (endWord - 1) endWord
      (fillNul buf (p + 1) endWord, endWord)
    else (buf, endWord)
  if deref (buf.drop endWord) = NUL then (buf, endWord)
  else
    let endWhitespace := endWord + strspn (buf.drop (endWord + 1)) whitespace + 1
    (fillNul buf endWord endWhitespace, endWhitespace)

/-! ### The word, the gap and the rest -/

theorem strcspn_eq {s : List Byte} (hs : NUL ∉ s) (reject : List Byte) :
    strcspn s reject = (s.takeWhile (!reject.contains ·)).length := by
  rw [strcspn]
  congr 1
  induction s with
  | nil => rfl
  | cons c s ih =>
    rw [List.mem_cons, not_or] at hs
    have hc : (c != NUL) = true := by simpa using Ne.symm hs.1
    rw [List.takeWhile_cons, List.takeWhile_cons, ih hs.2, hc, Bool.true_and]

theorem fillNul_gap (head word gap rest : List Byte) :
    fillNul (head ++ (word ++ (gap ++ rest))) (head.length + word.length)
        (head.length + word.length + gap.length) =
      head ++ (word ++ (List.replicate gap.length NUL ++ rest)) := by
  rw [fillNul, Nat.add_sub_cancel_left, Nat.add_assoc, List.take_length_add_append, List.take_left,
    List.drop_length_add_append, List.drop_length_add_append, List.drop_left, List.append_assoc]

theorem quotedWord_stop (delimiters : List Byte) {quotechar : Byte} (n : Nat) {word : List Byte}
    (rest : List Byte) (h : word.getLast? ≠ some quotechar) :
    quotedWord delimiters quotechar n word rest = (word, rest) := by
  cases n with
  | zero => rfl
  | succ n =>
    unfold quotedWord
    rw [if_neg h]

theorem quotedWord_end (delimiters : List Byte) (quotechar : Byte) (n : Nat) (word : List Byte) :
    quotedWord delimiters quotechar (n + 1) (word ++ [quotechar]) [] = (word, []) := by
  unfold quotedWord
  rw [List.getLast?_concat, if_pos rfl, List.dropLast_concat]

theorem quotedWord_quoted (delimiters : List Byte) (quotechar : Byte) (n : Nat) (word : List Byte) (d : Byte)
    (rest : List Byte) :
    quotedWord delimiters quotechar (n + 1) (word ++ [quotechar]) (d :: rest) =
      quotedWord delimiters quotechar n (word ++ d :: rest.takeWhile (!delimiters.contains ·))
        (rest.dropWhile (!delimiters.contains ·)) := by
  conv_lhs => unfold quotedWord
  rw [List.getLast?_concat, if_pos rfl, List.dropLast_concat]

/-- The loop moves a quoted delimiter and what follows it over the quote; the gap behind the word grows. -/
theorem quoteLoop_eq (delimiters : List Byte) (quotechar : Byte) (n : Nat)
    (head word gap rest : List Byte) (hword : word ≠ []) (hr : NUL ∉ rest) :
    ∃ buf p endWord m, quoteLoop delimiters quotechar n (head ++ (word ++ (gap ++ rest)))
        (head.length + word.length - 1) (head.length + word.length + gap.length) = (buf, p, endWord) ∧
      fillNul buf (p + 1) endWord = head ++ ((quotedWord delimiters quotechar n word rest).1 ++
        (List.replicate m NUL ++ (quotedWord delimiters quotechar n word rest).2)) ∧
      endWord = head.length + (quotedWord delimiters quotechar n word rest).1.length + m ∧
      (quotedWord delimiters quotechar n word rest).1.length + m +
        (quotedWord delimiters quotechar n word rest).2.length =
          word.length + gap.length + rest.length := by
  have hstay (word gap rest : List Byte) (hword : word ≠ []) :
      fillNul (head ++ (word ++ (gap ++ rest))) (head.length + word.length - 1 + 1)
          (head.length + word.length + gap.length) =
        head ++ (word ++ (List.replicate gap.length NUL ++ rest)) := by
    have hpos := List.length_pos_of_ne_nil hword
    rw [Nat.sub_add_cancel (by omega), fillNul_gap]
  induction n generalizing word gap rest with
  | zero => exact ⟨_, _, _, gap.length, rfl, hstay word gap rest hword, rfl, rfl⟩
  | succ n ih =>
    obtain ⟨init, c, rfl⟩ := (List.eq_nil_or_concat word).resolve_left hword
    rw [List.concat_eq_append] at hword ⊢
    have hp : head.length + (init ++ [c]).length - 1 = head.length + init.length := by
      rw [List.length_append]
      rfl
    have hlast : deref ((head ++ (init ++ [c] ++ (gap ++ rest))).drop
        (head.length + (init ++ [c]).length - 1)) = c := by
      rw [hp, List.drop_length_add_append, List.append_assoc, List.drop_left]
      rfl
    have hnext (k : Nat) : (head ++ (init ++ [c] ++ (gap ++ rest))).drop
        (head.length + (init ++ [c]).length + gap.length + k) = rest.drop k := by
      rw [Nat.add_assoc, Nat.add_assoc, List.drop_length_add_append, List.drop_length_add_append,
        List.drop_length_add_append]
    rw [quoteLoop, hlast]
    by_cases hc : c = quotechar
    swap
    · have hlast' : (init ++ [c]).getLast? ≠ some quotechar := by
        rw [List.getLast?_concat]
        exact fun h => hc (Option.some.inj h)
      rw [if_neg hc, quotedWord_stop delimiters (n + 1) rest hlast']
      exact ⟨_, _, _, gap.length, rfl, hstay _ gap rest hword, rfl, rfl⟩
    subst hc
    have hderef := hnext 0
    rw [Nat.add_zero, List.drop_zero] at hderef
    rw [if_pos rfl, hderef]
    cases rest with
    | nil =>
      rw [if_neg (by simp), quotedWord_end]
      refine ⟨_, _, _, gap.length + 1, rfl, ?_, ?_, ?_⟩
      · have hset : (head ++ (init ++ [c] ++ (gap ++ []))).set (head.length + init.length) NUL =
            head ++ ((init ++ [NUL]) ++ (gap ++ [])) := by
          simp
        have hlen : (init ++ [NUL]).length = (init ++ [c]).length := by simp
        have hgap := hstay (init ++ [NUL]) gap [] (by simp)
        rw [hlen, hp] at hgap
        rw [hp, hset, hgap, List.replicate_succ, List.append_assoc]
        rfl
      · rw [List.length_append, List.length_singleton]
        dsimp only
        omega
      · rw [List.length_append, List.length_singleton]
        dsimp only
        omega
    | cons d rest =>
      rw [List.mem_cons, not_or] at hr
      have hrest := hnext 1
      rw [List.drop_one, List.tail_cons] at hrest
      have hsplit := List.takeWhile_append_dropWhile (p := (!delimiters.contains ·)) (l := rest)
      rw [deref_cons, if_pos (Ne.symm hr.1), hrest, strcspn_eq hr.2, quotedWord_quoted]
      generalize rest.takeWhile (!delimiters.contains ·) = t at hsplit ⊢
      generalize rest.dropWhile (!delimiters.contains ·) = u at hsplit ⊢
      obtain ⟨gap', hgap'⟩ : ∃ gap', gap' = ([c] ++ gap ++ d :: t).drop (t.length + 1) := ⟨_, rfl⟩
      have hlen' : gap'.length = gap.length + 1 := by
        rw [hgap', List.length_drop]
        simp
        omega
      have hmove : memmove (head ++ (init ++ [c] ++ (gap ++ d :: rest))) (head.length + init.length)
          (head.length + (init ++ [c]).length + gap.length) (t.length + 1) =
            head ++ ((init ++ d :: t) ++ (gap' ++ u)) := by
        have hmoved : ((head ++ (init ++ [c] ++ (gap ++ d :: rest))).drop
            (head.length + (init ++ [c]).length + gap.length)).take (t.length + 1) = d :: t := by
          rw [hderef, List.take_succ_cons, ← hsplit, List.take_left]
        have hbehind : (head ++ (init ++ [c] ++ (gap ++ d :: rest))).drop
            (head.length + init.length + (t.length + 1)) = gap' ++ u := by
          rw [Nat.add_assoc, List.drop_length_add_append, List.append_assoc, List.drop_length_add_append,
            hgap', ← List.drop_append_of_le_length (by simp; omega), ← hsplit]
          simp
        rw [memmove, hmoved, hbehind, List.take_length_add_append, List.append_assoc init, List.take_left]
        simp
      dsimp only
      rw [hp, hmove]
      obtain ⟨buf, p, endWord, m, hloop, hzero, hend, hcount⟩ := ih (init ++ d :: t) gap' u (by simp)
        (fun h => hr.2 (hsplit ▸ List.mem_append_right t h))
      refine ⟨buf, p, endWord, m, ?_, hzero, hend, ?_⟩
      · rw [← hloop]
        congr 1
        · simp
          omega
        · rw [hlen']
          simp
          omega
      · rw [hcount, hlen', ← hsplit]
        simp
        omega

theorem quotedWord_noNul (delimiters : List Byte) (quotechar : Byte) (n : Nat) {word rest : List Byte}
    (hword : NUL ∉ word) (hrest : NUL ∉ rest) :
    NUL ∉ (quotedWord delimiters quotechar n word rest).1 ∧
      NUL ∉ (quotedWord delimiters quotechar n word rest).2 := by
  induction n generalizing word rest with
  | zero => exact ⟨hword, hrest⟩
  | succ n ih =>
    by_cases hlast : word.getLast? = some quotechar
    swap
    · rw [quotedWord_stop delimiters (n + 1) rest hlast]
      exact ⟨hword, hrest⟩
    obtain ⟨init, rfl⟩ := List.getLast?_eq_some_iff.mp hlast
    have hinit : NUL ∉ init := fun h => hword (List.mem_append_left _ h)
    cases rest with
    | nil =>
      rw [quotedWord_end]
      exact ⟨hinit, List.not_mem_nil⟩
    | cons d rest =>
      rw [List.mem_cons, not_or] at hrest
      rw [quotedWord_quoted]
      refine ih ?_ fun h => hrest.2 ((List.dropWhile_suffix _).subset h)
      rw [List.mem_append, List.mem_cons, not_or, not_or]
      exact ⟨hinit, hrest.1, fun h => hrest.2 ((List.takeWhile_prefix _).subset h)⟩

/-- `skip_quoted` leaves the word where it began, ended by NULs or by the end of the buffer. -/
theorem skipQuotedAt_eq (head s delimiters whitespace : List Byte) (quotechar : Byte) (hs : NUL ∉ s) :
    ∃ m, skipQuotedAt (head ++ s) head.length delimiters whitespace quotechar =
        (head ++ ((skipQuoted s delimiters whitespace quotechar).1 ++ (List.replicate m NUL ++
            (skipQuoted s delimiters whitespace quotechar).2)),
          head.length + (skipQuoted s delimiters whitespace quotechar).1.length + m) ∧
      (skipQuoted s delimiters whitespace quotechar).1.length + m +
        (skipQuoted s delimiters whitespace quotechar).2.length = s.length ∧
      (m = 0 → (skipQuoted s delimiters whitespace quotechar).2 = []) ∧
      NUL ∉ (skipQuoted s delimiters whitespace quotechar).1 ∧
      NUL ∉ (skipQuoted s delimiters whitespace quotechar).2 := by
  have hsplit := List.takeWhile_append_dropWhile (p := (!delimiters.contains ·)) (l := s)
  unfold skipQuoted skipQuotedAt
  dsimp only
  rw [List.drop_left, strcspn_eq hs]
  have hlen : (head ++ s).length - head.length + 1 = s.length + 1 := by simp
  rw [hlen]
  have hnul : NUL ∉ s.takeWhile (!delimiters.contains ·) ∧ NUL ∉ s.dropWhile (!delimiters.contains ·) :=
    ⟨fun h => hs ((List.takeWhile_prefix _).subset h), fun h => hs ((List.dropWhile_suffix _).subset h)⟩
  generalize s.takeWhile (!delimiters.contains ·) = t at hsplit hnul ⊢
  generalize s.dropWhile (!delimiters.contains ·) = u at hsplit hnul ⊢
  obtain ⟨hwnul, hrnul⟩ := quotedWord_noNul delimiters quotechar (s.length + 1) hnul.1 hnul.2
  -- the word and the gap behind it
  obtain ⟨m, hfirst, hcount⟩ : ∃ m, (if head.length < head.length + t.length then
      let (buf, p, endWord) := quoteLoop delimiters quotechar (s.length + 1) (head ++ s)
        (head.length + t.length - 1) (head.length + t.length)
      (fillNul buf (p + 1) endWord, endWord)
      else (head ++ s, head.length + t.length)) =
        (head ++ ((quotedWord delimiters quotechar (s.length + 1) t u).1 ++ (List.replicate m NUL ++
            (quotedWord delimiters quotechar (s.length + 1) t u).2)),
          head.length + (quotedWord delimiters quotechar (s.length + 1) t u).1.length + m) ∧
      (quotedWord delimiters quotechar (s.length + 1) t u).1.length + m +
        (quotedWord delimiters quotechar (s.length + 1) t u).2.length = s.length := by
    by_cases ht : t = []
    · subst ht
      rw [List.nil_append] at hsplit
      rw [if_neg (by simp), quotedWord_stop _ _ _ (by simp), hsplit]
      exact ⟨0, rfl, Nat.zero_add _⟩
    · have hpos := List.length_pos_of_ne_nil ht
      obtain ⟨buf, p, endWord, m, hloop, hzero, hend, hcount⟩ :=
        quoteLoop_eq delimiters quotechar (s.length + 1) head t [] u ht hnul.2
      rw [List.nil_append, hsplit, List.length_nil, Nat.add_zero (head.length + t.length)] at hloop
      rw [if_pos (by omega), hloop]
      refine ⟨m, Prod.ext hzero hend, hcount.trans ?_⟩
      rw [List.length_nil, Nat.add_zero, ← List.length_append, hsplit]
  rw [hfirst]
  dsimp only
  generalize quotedWord delimiters quotechar (s.length + 1) t u = found at hwnul hrnul hcount ⊢
  obtain ⟨w, r⟩ := found
  dsimp only at hwnul hrnul hcount ⊢
  have hnext (k : Nat) : (head ++ (w ++ (List.replicate m NUL ++ r))).drop
      (head.length + w.length + m + k) = r.drop k := by
    obtain ⟨gap, hgap⟩ : ∃ gap, gap = List.replicate m NUL := ⟨_, rfl⟩
    have hm : m = gap.length := by rw [hgap, List.length_replicate]
    rw [← hgap, hm, Nat.add_assoc, Nat.add_assoc, List.drop_length_add_append, List.drop_length_add_append,
      List.drop_length_add_append]
  have hderef := hnext 0
  rw [Nat.add_zero, List.drop_zero] at hderef
  rw [hderef]
  cases r with
  | nil => exact ⟨m, rfl, hcount, fun _ => rfl, hwnul, hrnul⟩
  | cons d r =>
    rw [List.mem_cons, not_or] at hrnul
    have hrest := hnext 1
    rw [List.drop_one, List.tail_cons] at hrest
    rw [deref_cons, if_neg (Ne.symm hrnul.1), hrest, strspn, List.tail_cons]
    have hblanks := congrArg List.length
      (List.takeWhile_append_dropWhile (p := whitespace.contains) (l := r))
    rw [List.length_append] at hblanks
    rw [List.length_cons] at hcount
    refine ⟨m + ((r.takeWhile whitespace.contains).length + 1), ?_, by omega, fun h => by omega, hwnul,
      fun h => hrnul.2 ((List.dropWhile_suffix _).subset h)⟩
    have hgap := fillNul_gap head (w ++ List.replicate m NUL) (d :: r.takeWhile whitespace.contains)
      (r.dropWhile whitespace.contains)
    have hbuf : w ++ List.replicate m NUL ++ (d :: r.takeWhile whitespace.contains ++
        r.dropWhile whitespace.contains) = w ++ (List.replicate m NUL ++ d :: r) := by
      rw [List.cons_append, List.takeWhile_append_dropWhile, List.append_assoc]
    have hlen : head.length + (w ++ List.replicate m NUL).length = head.length + w.length + m := by
      rw [List.length_append, List.length_replicate, Nat.add_assoc]
    rw [hbuf, hlen, List.length_cons] at hgap
    refine Prod.ext (hgap.trans ?_) (by dsimp only; omega)
    dsimp only
    rw [List.append_assoc w, List.replicate_add m, List.append_assoc (List.replicate m NUL)]

/-! ### The loop of `parse_auth_header` on its buffer -/

/-- The pointers of a `struct auth_header` into the buffer, for a digest. -/
structure AuthPointers where
  user : Option Nat
  uri : Option Nat
  cnonce : Option Nat
  response : Option Nat
  qop : Option Nat
  nc : Option Nat
  nonce : Option Nat
  deriving DecidableEq, Repr

def AuthPointers.zero : AuthPointers := ⟨none, none, none, none, none, none, none⟩

def AuthPointers.set (h : AuthPointers) (name : List Byte) (value : Nat) : AuthPointers :=
  if name = ascii "username" then { h with user := some value }
  else if name = ascii "cnonce" then { h with cnonce := some value }
  else if name = ascii "response" then { h with response := some value }
  else if name = ascii "uri" then { h with uri := some value }
  else if name = ascii "qop" then { h with qop := some value }
  else if name = ascii "nc" then { h with nc := some value }
  else if name = ascii "nonce" then { h with nonce := some value }
  else h

/-- The strings that the pointers are at. -/
def AuthPointers.read (h : AuthPointers) (buf : List Byte) : AuthHeader where
  user := h.user.map fun q => cstr (buf.drop q)
  type := 2
  plainPassword := none
  uri := h.uri.map fun q => cstr (buf.drop q)
  cnonce := h.cnonce.map fun q => cstr (buf.drop q)
  response := h.response.map fun q => cstr (buf.drop q)
  qop := h.qop.map fun q => cstr (buf.drop q)
  nc := h.nc.map fun q => cstr (buf.drop q)
  nonce := h.nonce.map fun q => cstr (buf.drop q)

/-- The value of a field at `s`: the pointer to it, the buffer, and the pointer behind it. -/
def authValueAt (buf : List Byte) (s : Nat) : Nat × List Byte × Nat :=
  if deref (buf.drop s) = QUOTE then
    let (buf, s') := skipQuotedAt buf (s + 1) [QUOTE] [SP] BACKSLASH
    (s + 1, buf, if deref (buf.drop s') = COMMA then s' + 1 else s')
  else
    let (buf, s') := skipQuotedAt buf s [COMMA, SP] [SP] NUL
    (s, buf, s')

/-- The loop of `parse_auth_header` from `s` on: the buffer and the pointers when it ends. -/
def digestLoop : Nat → List Byte → Nat → AuthPointers → Option (List Byte × AuthPointers)
  | 0, _, _, _ => none
  | n + 1, buf, s, h =>
    let name := s + ((buf.drop s).takeWhile isspace).length
    let (buf, s) := skipQuotedAt buf name [61] [SP] NUL
    let (value, buf, s) := authValueAt buf s
    if deref (buf.drop name) = NUL then some (buf, h)
    else digestLoop n buf s (h.set (cstr (buf.drop name)) value)

/-- A string that is not touched any more: it ends in front of what is still to be read, or at the end. -/
def Settled (head rest : List Byte) (q : Nat) : Prop := NUL ∈ head.drop q ∨ rest = []

/-- Behind a change that only adds to what was read, a settled string reads the same. -/
theorem Settled.step {head rest more rest' : List Byte} {q : Nat} (h : Settled head rest q)
    (hlen : more.length + rest'.length = rest.length) :
    Settled (head ++ more) rest' q ∧
      cstr ((head ++ (more ++ rest')).drop q) = cstr ((head ++ rest).drop q) := by
  rcases h with h | h
  · have hq : q ≤ head.length := by
      by_contra hq
      rw [List.drop_of_length_le (by omega)] at h
      cases h
    refine ⟨Or.inl ?_, ?_⟩
    · rw [List.drop_append_of_le_length hq]
      exact List.mem_append_left _ h
    · rw [List.drop_append_of_le_length hq, List.drop_append_of_le_length hq]
      obtain ⟨text, tail, htext, hnul⟩ := List.eq_append_cons_of_mem h
      have hne : ∀ c ∈ text, (c != NUL) = true := fun c hc => by
        rw [bne_iff_ne]
        rintro rfl
        exact hnul hc
      rw [htext, List.append_assoc, List.append_assoc, List.cons_append, List.cons_append, cstr, cstr,
        Scan.takeWhile_stop _ _ _ _ hne (by rfl), Scan.takeWhile_stop _ _ _ _ hne (by rfl)]
  · subst h
    rw [List.length_nil, Nat.add_eq_zero_iff, List.length_eq_zero_iff, List.length_eq_zero_iff] at hlen
    obtain ⟨rfl, rfl⟩ := hlen
    exact ⟨Or.inr rfl, by simp⟩

def AuthPointers.Has (h : AuthPointers) (q : Nat) : Prop :=
  some q ∈ [h.user, h.uri, h.cnonce, h.response, h.qop, h.nc, h.nonce]

theorem AuthPointers.read_congr {h : AuthPointers} {buf buf' : List Byte}
    (hsame : ∀ q, h.Has q → cstr (buf'.drop q) = cstr (buf.drop q)) : h.read buf' = h.read buf := by
  have hmap (o : Option Nat) (ho : o ∈ [h.user, h.uri, h.cnonce, h.response, h.qop, h.nc, h.nonce]) :
      (o.map fun q => cstr (buf'.drop q)) = o.map fun q => cstr (buf.drop q) := by
    cases o with
    | none => rfl
    | some q => exact congrArg some (hsame q ho)
  simp only [List.mem_cons, List.not_mem_nil, or_false] at hmap
  rw [read, read, hmap h.user (by simp), hmap h.uri (by simp), hmap h.cnonce (by simp),
    hmap h.response (by simp), hmap h.qop (by simp), hmap h.nc (by simp), hmap h.nonce (by simp)]

theorem AuthPointers.read_set (h : AuthPointers) (buf name : List Byte) (value : Nat) :
    (h.set name value).read buf = (h.read buf).set name (cstr (buf.drop value)) := by
  unfold AuthPointers.set AuthHeader.set
  split_ifs <;> rfl

theorem AuthPointers.has_set {h : AuthPointers} {name : List Byte} {value q : Nat}
    (hq : (h.set name value).Has q) : q = value ∨ h.Has q := by
  have hset (i : Nat)
      (hq : some q ∈ [h.user, h.uri, h.cnonce, h.response, h.qop, h.nc, h.nonce].set i (some value)) :
      q = value ∨ h.Has q := (List.mem_or_eq_of_mem_set hq).symm.imp_left Option.some.inj
  unfold AuthPointers.set at hq
  split_ifs at hq
  · exact hset 0 hq
  · exact hset 2 hq
  · exact hset 3 hq
  · exact hset 1 hq
  · exact hset 4 hq
  · exact hset 5 hq
  · exact hset 6 hq
  · exact Or.inr hq

/-- A word that `skip_quoted` has left is settled, and reads as it should. -/
theorem settled_word (head : List Byte) {word rest : List Byte} {m : Nat} (hword : NUL ∉ word)
    (hm : m = 0 → rest = []) :
    Settled (head ++ (word ++ List.replicate m NUL)) rest head.length ∧
      cstr ((head ++ (word ++ (List.replicate m NUL ++ rest))).drop head.length) = word := by
  rw [Settled, List.drop_left, List.drop_left]
  cases m with
  | zero =>
    rw [hm rfl, List.replicate_zero, List.nil_append, List.append_nil, cstr_of_no_nul _ hword]
    exact ⟨Or.inr rfl, rfl⟩
  | succ m =>
    have hne : ∀ c ∈ word, (c != NUL) = true := fun c hc => by
      rw [bne_iff_ne]
      rintro rfl
      exact hword hc
    rw [List.replicate_succ, List.cons_append, cstr, Scan.takeWhile_stop _ _ _ _ hne (by rfl)]
    exact ⟨Or.inl (by simp), rfl⟩

/-- The value of a field on the buffer is the one on the string that is left. -/
theorem authValueAt_eq (head s : List Byte) (hs : NUL ∉ s) :
    ∃ q more, authValueAt (head ++ s) head.length =
        (q, head ++ (more ++ (authValue s).2), (head ++ more).length) ∧
      more.length + (authValue s).2.length = s.length ∧ NUL ∉ (authValue s).2 ∧
      Settled (head ++ more) (authValue s).2 q ∧
      cstr ((head ++ (more ++ (authValue s).2)).drop q) = (authValue s).1 := by
  unfold authValueAt authValue
  rw [List.drop_left]
  by_cases hquote : deref s = QUOTE
  · obtain ⟨t, rfl⟩ : ∃ t, s = QUOTE :: t := ⟨_, deref_eq_cons hquote (by decide)⟩
    rw [List.mem_cons, not_or] at hs
    obtain ⟨m, hskip, hcount, hm, hw, hr⟩ := skipQuotedAt_eq (head ++ [QUOTE]) t [QUOTE] [SP] BACKSLASH hs.2
    have hlen : (head ++ [QUOTE]).length = head.length + 1 := List.length_append
    rw [hlen, List.append_assoc, List.singleton_append] at hskip
    rw [if_pos hquote, if_pos hquote, hskip, List.tail_cons]
    generalize skipQuoted t [QUOTE] [SP] BACKSLASH = found at hcount hm hw hr ⊢
    obtain ⟨w, r⟩ := found
    dsimp only at hcount hm hw hr ⊢
    obtain ⟨hsettled, hread⟩ := settled_word (head ++ [QUOTE]) hw hm
    rw [hlen] at hsettled hread
    have hbuf (t : List Byte) : head ++ [QUOTE] ++ (w ++ (List.replicate m NUL ++ t)) =
        head ++ (QUOTE :: (w ++ List.replicate m NUL) ++ t) := by simp
    have hend : head.length + 1 + w.length + m = (head ++ QUOTE :: (w ++ List.replicate m NUL)).length := by
      simp
      omega
    have hderef : (head ++ [QUOTE] ++ (w ++ (List.replicate m NUL ++ r))).drop
        (head.length + 1 + w.length + m) = r := by
      rw [hbuf, ← List.append_assoc, hend, List.drop_left]
    have hplace : head ++ [QUOTE] ++ (w ++ List.replicate m NUL) =
        head ++ QUOTE :: (w ++ List.replicate m NUL) := by simp
    rw [hplace] at hsettled
    rw [hderef]
    by_cases hcomma : deref r = COMMA
    swap
    · rw [if_neg hcomma, if_neg hcomma]
      refine ⟨head.length + 1, QUOTE :: (w ++ List.replicate m NUL), ?_, ?_, hr, hsettled, ?_⟩
      · rw [hbuf, hend]
      · simp [← hcount]
        omega
      · rw [← hbuf]
        exact hread
    · obtain ⟨r', rfl⟩ : ∃ r', r = COMMA :: r' := ⟨_, deref_eq_cons hcomma (by decide)⟩
      have hone : [COMMA].length + r'.length = (COMMA :: r').length := by simp [Nat.add_comm]
      obtain ⟨hstep, hsame⟩ := hsettled.step hone
      have hcomma' (t : List Byte) : head ++ QUOTE :: (w ++ List.replicate m NUL) ++ ([COMMA] ++ t) =
          head ++ (QUOTE :: (w ++ List.replicate m NUL) ++ [COMMA] ++ t) := by simp
      rw [if_pos hcomma, if_pos hcomma, List.tail_cons]
      refine ⟨head.length + 1, QUOTE :: (w ++ List.replicate m NUL) ++ [COMMA], ?_, ?_,
        fun h => hr (List.mem_cons_of_mem _ h), ?_, ?_⟩
      · rw [hbuf, hend]
        simp
        omega
      · simp only [List.length_append, List.length_cons, List.length_replicate, List.length_nil] at hcount ⊢
        omega
      · rw [← List.append_assoc]
        exact hstep
      · rw [← hcomma', hsame, List.append_assoc, ← hbuf]
        exact hread
  · obtain ⟨m, hskip, hcount, hm, hw, hr⟩ := skipQuotedAt_eq head s [COMMA, SP] [SP] NUL hs
    rw [if_neg hquote, if_neg hquote, hskip]
    obtain ⟨hsettled, hread⟩ := settled_word head hw hm
    refine ⟨head.length, (skipQuoted s [COMMA, SP] [SP] NUL).1 ++ List.replicate m NUL, ?_, ?_, hr, hsettled, ?_⟩
    · simp [Nat.add_assoc]
    · simp [← hcount]
    · rw [List.append_assoc]
      exact hread

theorem deref_cstr (s : List Byte) : deref s = NUL ↔ cstr s = [] := by
  cases s with
  | nil => exact ⟨fun _ => rfl, fun _ => rfl⟩
  | cons c s =>
    rw [deref_cons, cstr, List.takeWhile_cons]
    by_cases hc : c = NUL <;> simp [hc]

/-- The loop on the buffer ends, and its pointers are at the fields that the loop on the string finds. -/
theorem digestLoop_eq (n : Nat) (head s : List Byte) (h : AuthPointers) (hs : NUL ∉ s) (hn : s.length < n)
    (hsettled : ∀ q, h.Has q → Settled head s q) :
    ∃ buf h', digestLoop n (head ++ s) head.length h = some (buf, h') ∧
      h'.read buf = authFields n s (h.read (head ++ s)) := by
  induction n generalizing head s h with
  | zero => omega
  | succ n ih =>
    rw [digestLoop, authFields, List.drop_left]
    have hsplit := List.takeWhile_append_dropWhile (p := isspace) (l := s)
    have hs1 : NUL ∉ s.dropWhile isspace := fun hm => hs ((List.dropWhile_suffix _).subset hm)
    generalize s.takeWhile isspace = blanks at hsplit ⊢
    generalize s.dropWhile isspace = s1 at hsplit hs1 ⊢
    obtain ⟨m, hname, hcount, hm, hw, hr⟩ := skipQuotedAt_eq (head ++ blanks) s1 [61] [SP] NUL hs1
    have hword := settled_word (head ++ blanks) hw hm
    rw [List.length_append, List.append_assoc, hsplit] at hname
    have hlen := congrArg List.length hsplit
    rw [List.length_append] at hlen
    dsimp only
    rw [hname]
    generalize skipQuoted s1 [61] [SP] NUL = found at hcount hm hw hr hword ⊢
    obtain ⟨w, r⟩ := found
    dsimp only at hcount hm hw hr hword ⊢
    -- what is behind the name
    obtain ⟨more1, hmore1⟩ : ∃ more, more = blanks ++ (w ++ List.replicate m NUL) := ⟨_, rfl⟩
    have hcount1 : more1.length + r.length = s.length := by
      simp only [hmore1, List.length_append, List.length_replicate]
      omega
    have hbuf1 : head ++ blanks ++ (w ++ (List.replicate m NUL ++ r)) = head ++ more1 ++ r := by
      simp [hmore1]
    have hplace1 : head.length + blanks.length + w.length + m = (head ++ more1).length := by
      simp only [hmore1, List.length_append, List.length_replicate]
      omega
    rw [hbuf1, hplace1]
    obtain ⟨q, more2, hvalue, hcount2, hr2, hq, hqread⟩ := authValueAt_eq (head ++ more1) r hr
    have hplace2 : head ++ blanks ++ (w ++ List.replicate m NUL) = head ++ more1 := by simp [hmore1]
    rw [hvalue]
    dsimp only
    -- the name, and the values found before, still stand in the buffer
    rw [hplace2, List.length_append, hbuf1] at hword
    have hname2 : cstr ((head ++ more1 ++ (more2 ++ (authValue r).2)).drop (head.length + blanks.length)) = w :=
      (hword.1.step hcount2).2.trans hword.2
    have hkept (p : Nat) (hp : h.Has p) : Settled (head ++ more1 ++ more2) (authValue r).2 p ∧
        cstr ((head ++ more1 ++ (more2 ++ (authValue r).2)).drop p) = cstr ((head ++ s).drop p) := by
      obtain ⟨hp1, hsame1⟩ := (hsettled p hp).step hcount1
      obtain ⟨hp2, hsame2⟩ := hp1.step hcount2
      rw [← List.append_assoc head] at hsame1
      exact ⟨hp2, hsame2.trans hsame1⟩
    have hread : h.read (head ++ more1 ++ (more2 ++ (authValue r).2)) = h.read (head ++ s) :=
      AuthPointers.read_congr fun p hp => (hkept p hp).2
    by_cases hend : w = []
    · rw [if_pos hend, if_pos ((deref_cstr _).mpr (hname2.trans hend))]
      exact ⟨_, h, rfl, hread⟩
    · have hgo : ¬ deref ((head ++ more1 ++ (more2 ++ (authValue r).2)).drop
          (head.length + blanks.length)) = NUL := fun hz => hend (hname2.symm.trans ((deref_cstr _).mp hz))
      have hpos := List.length_pos_of_ne_nil hend
      rw [if_neg hend, if_neg hgo, hname2, ← List.append_assoc (head ++ more1)]
      have hnext : ∀ p, (h.set w q).Has p → Settled (head ++ more1 ++ more2) (authValue r).2 p := by
        intro p hp
        rcases AuthPointers.has_set hp with rfl | hp
        · exact hq
        · exact (hkept p hp).1
      obtain ⟨buf, h', hloop, hfields⟩ :=
        ih (head ++ more1 ++ more2) (authValue r).2 (h.set w q) hr2 (by omega) hnext
      refine ⟨buf, h', hloop, hfields.trans ?_⟩
      rw [AuthPointers.read_set, List.append_assoc (head ++ more1), hqread, hread]

end CivetWeb
