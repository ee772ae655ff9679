import CivetWeb.Auth.SkipQuoted

namespace CivetWeb

/-! ### The parameters of a digest -/

def escaped (value : List Byte) : List Byte :=
  value.flatMap fun c => if c = QUOTE then [BACKSLASH, QUOTE] else [c]

/-- A value without quotes: no comma and no blank. -/
def TokenValue (value : List Byte) : Prop :=
  (∀ c ∈ value, c ≠ NUL ∧ c ≠ COMMA ∧ c ≠ SP) ∧ value.head? ≠ some QUOTE

/-- A value for quotes: no backslash. -/
def QuotedValue (value : List Byte) : Prop := ∀ c ∈ value, c ≠ NUL ∧ c ≠ BACKSLASH

instance (value : List Byte) : Decidable (TokenValue value) :=
  inferInstanceAs (Decidable ((∀ c ∈ value, c ≠ NUL ∧ c ≠ COMMA ∧ c ≠ SP) ∧ value.head? ≠ some QUOTE))

instance (value : List Byte) : Decidable (QuotedValue value) :=
  inferInstanceAs (Decidable (∀ c ∈ value, c ≠ NUL ∧ c ≠ BACKSLASH))

/-- A pair of name and value, with the form that it is written in; behind a value in quotes there need not
be a blank behind the comma. -/
structure DigestParam where
  name : List Byte
  value : List Byte
  quoted : Bool
  blank : Bool
  named : name ≠ [] ∧ ∀ c ∈ name, c ≠ NUL ∧ c ≠ 61 ∧ isspace c = false
  valued : if quoted then QuotedValue value else TokenValue value
  spaced : quoted = true ∨ blank = true

def DigestParam.valueText (p : DigestParam) : List Byte :=
  if p.quoted then QUOTE :: (escaped p.value ++ [QUOTE]) else p.value

def DigestParam.blanks (p : DigestParam) : List Byte := if p.blank then [SP] else []

/-- What follows a value: the end, or a comma and the next parameters. -/
def digestText : List DigestParam → List Byte
  | [] => []
  | [p] => p.name ++ 61 :: p.valueText
  | p :: ps => p.name ++ 61 :: (p.valueText ++ COMMA :: (p.blanks ++ digestText ps))

/-- The value of the last parameter with a name. -/
def lastValue (params : List DigestParam) (name : List Byte) : Option (List Byte) :=
  ((params.filter fun p => p.name = name).getLast?).map DigestParam.value

/-! ### Words -/

theorem escaped_plain {value : List Byte} (h : QUOTE ∉ value) : escaped value = value := by
  induction value with
  | nil => rfl
  | cons c value ih =>
    rw [List.mem_cons, not_or] at h
    rw [escaped, List.flatMap_cons, if_neg (Ne.symm h.1), ← escaped, ih h.2, List.singleton_append]

theorem escaped_quote {value : List Byte} (h : QUOTE ∉ value) (more : List Byte) :
    escaped (value ++ QUOTE :: more) = value ++ BACKSLASH :: QUOTE :: escaped more := by
  rw [escaped, List.flatMap_append, List.flatMap_cons, if_pos rfl, ← escaped, ← escaped, escaped_plain h]
  rfl

theorem getLast?_append_ne {s t : List Byte} {c : Byte} (hs : s.getLast? ≠ some c) (ht : c ∉ t) :
    (s ++ t).getLast? ≠ some c := by
  intro h
  cases hlast : t.getLast? with
  | none => exact hs (by rwa [List.getLast?_append, hlast, Option.none_or] at h)
  | some d =>
    rw [List.getLast?_append, hlast, Option.some_or] at h
    exact ht (Option.some.inj h ▸ List.mem_of_getLast? hlast)

/-- A quoted word is read up to its closing quote, without the backslashes. -/
theorem quotedWord_escaped (rest word value : List Byte) (hword : word.getLast? ≠ some BACKSLASH)
    (hvalue : QuotedValue value) (n : Nat) (hn : value.length < n) :
    quotedWord [QUOTE] BACKSLASH n
        (word ++ (escaped value ++ QUOTE :: rest).takeWhile (!List.contains [QUOTE] ·))
        ((escaped value ++ QUOTE :: rest).dropWhile (!List.contains [QUOTE] ·)) =
      (word ++ value, QUOTE :: rest) := by
  have hgo {s : List Byte} (hs : QUOTE ∉ s) : ∀ c ∈ s, (!List.contains [QUOTE] c) = true := by
    intro c hc
    have : c ≠ QUOTE := fun h => hs (h ▸ hc)
    simpa using this
  induction n generalizing word value with
  | zero => omega
  | succ n ih =>
    by_cases hquote : QUOTE ∈ value
    · obtain ⟨part, more, rfl, hpart⟩ := List.eq_append_cons_of_mem hquote
      have hrun : QUOTE ∉ part ++ [BACKSLASH] := by
        rw [List.mem_append, not_or]
        exact ⟨hpart, by decide⟩
      have htext : escaped (part ++ QUOTE :: more) ++ QUOTE :: rest =
          (part ++ [BACKSLASH]) ++ QUOTE :: (escaped more ++ QUOTE :: rest) := by
        rw [escaped_quote hpart]
        simp
      have hlen : more.length < n := by
        rw [List.length_append, List.length_cons] at hn
        omega
      have hnext := ih (word ++ part ++ [QUOTE]) more (by rw [List.getLast?_concat]; decide)
        (fun c hc => hvalue c (List.mem_append_right _ (List.mem_cons_of_mem _ hc))) hlen
      rw [htext, Scan.takeWhile_stop _ _ _ _ (hgo hrun) (by rfl), Scan.dropWhile_stop _ _ _ _ (hgo hrun) (by rfl),
        ← List.append_assoc word, quotedWord_quoted]
      rw [List.append_assoc (word ++ part), List.singleton_append] at hnext
      rw [hnext]
      simp
    · have hlast : (word ++ value).getLast? ≠ some BACKSLASH :=
        getLast?_append_ne hword fun h => (hvalue _ h).2 rfl
      rw [escaped_plain hquote, Scan.takeWhile_stop _ _ _ _ (hgo hquote) (by rfl),
        Scan.dropWhile_stop _ _ _ _ (hgo hquote) (by rfl), quotedWord_stop _ _ _ hlast]

/-- A word without quotes goes up to the first delimiter. -/
theorem skipQuoted_word {word rest delimiters : List Byte} (whitespace : List Byte) (hword : ∀ c ∈ word, c ∉ delimiters)
    (hnul : NUL ∉ word) (hrest : ∀ c ∈ rest.head?, c ∈ delimiters) :
    skipQuoted (word ++ rest) delimiters whitespace NUL = (word, rest.tail.dropWhile whitespace.contains) := by
  have hgo : ∀ c ∈ word, (!delimiters.contains c) = true := by
    intro c hc
    simpa using hword c hc
  have hlast : word.getLast? ≠ some NUL := fun h => hnul (List.mem_of_getLast? h)
  unfold skipQuoted
  cases rest with
  | nil =>
    rw [List.append_nil, List.takeWhile_eq_self_iff.mpr hgo, List.dropWhile_eq_nil_iff.mpr hgo,
      quotedWord_stop _ _ _ hlast]
  | cons d rest =>
    have hd : (!delimiters.contains d) = false := by simpa using hrest d rfl
    rw [Scan.takeWhile_stop _ _ _ _ hgo hd, Scan.dropWhile_stop _ _ _ _ hgo hd, quotedWord_stop _ _ _ hlast]

/-- What follows a value: nothing, or a comma and the next parameters. -/
def Follows (p : DigestParam) (tail next : List Byte) : Prop :=
  (tail = [] ∧ next = [] ∨ tail = COMMA :: (p.blanks ++ next)) ∧ next.head? ≠ some SP

theorem dropWhile_blank {s : List Byte} (h : s.head? ≠ some SP) : s.dropWhile (List.contains [SP]) = s := by
  cases s with
  | nil => rfl
  | cons c s =>
    have hc : c ≠ SP := fun hc => h (congrArg some hc)
    rw [List.dropWhile_cons_of_neg (by simpa using hc)]

theorem escaped_length (value : List Byte) : value.length ≤ (escaped value).length := by
  induction value with
  | nil => exact Nat.le_refl 0
  | cons c value ih =>
    rw [escaped, List.flatMap_cons, ← escaped, List.length_append, List.length_cons]
    split_ifs
    · rw [List.length_cons, List.length_singleton]
      omega
    · rw [List.length_singleton]
      omega

/-- The value of a parameter is read, and the comma behind it. -/
theorem authValue_param (p : DigestParam) {tail next : List Byte} (htail : Follows p tail next) :
    ∃ blanks, (∀ c ∈ blanks, isspace c = true) ∧
      authValue (p.valueText ++ tail) = (p.value, blanks ++ next) := by
  obtain ⟨hfollow, hnext⟩ := htail
  have hvalued := p.valued
  have htailhead : tail.head? ≠ some SP := by
    rcases hfollow with ⟨rfl, -⟩ | rfl
    · exact (Option.some_ne_none _).symm
    · rw [List.head?_cons]
      decide
  unfold authValue DigestParam.valueText
  cases hquoted : p.quoted with
  | true =>
    rw [if_pos hquoted] at hvalued
    have hlen := escaped_length p.value
    have hword := quotedWord_escaped tail [] p.value (by simp) hvalued
      ((escaped p.value ++ QUOTE :: tail).length + 1) (by rw [List.length_append]; omega)
    rw [List.nil_append, List.nil_append] at hword
    have hskip : skipQuoted (escaped p.value ++ QUOTE :: tail) [QUOTE] [SP] BACKSLASH = (p.value, tail) := by
      unfold skipQuoted
      rw [hword]
      dsimp only
      rw [List.tail_cons, dropWhile_blank htailhead]
    rw [if_pos rfl, List.cons_append, deref_cons, if_pos rfl, List.tail_cons, List.append_assoc,
      List.singleton_append, hskip]
    dsimp only
    rcases hfollow with ⟨rfl, rfl⟩ | rfl
    · exact ⟨[], List.forall_mem_nil _, rfl⟩
    · refine ⟨p.blanks, ?_, ?_⟩
      · unfold DigestParam.blanks
        split_ifs
        · exact List.forall_mem_singleton.mpr (by decide)
        · exact List.forall_mem_nil _
      · rw [deref_cons, if_pos rfl, List.tail_cons]
  | false =>
    rw [if_neg (by rw [hquoted]; decide)] at hvalued
    obtain ⟨hchars, hfirst⟩ := hvalued
    have hblank : p.blank = true := p.spaced.resolve_left (by rw [hquoted]; decide)
    have hnoquote : deref (p.value ++ tail) ≠ QUOTE := by
      cases hvalue : p.value with
      | nil =>
        rcases hfollow with ⟨rfl, -⟩ | rfl
        · decide
        · rw [List.nil_append, deref_cons]
          decide
      | cons c value =>
        rw [hvalue, List.head?_cons] at hfirst
        exact fun h => hfirst (congrArg some h)
    have hstop : ∀ c ∈ tail.head?, c ∈ [COMMA, SP] := by
      rcases hfollow with ⟨rfl, -⟩ | rfl
      · rintro c ⟨⟩
      · rintro c ⟨⟩
        exact List.mem_cons_self
    have hskip := skipQuoted_word [SP] (fun c hc => by simpa using (hchars c hc).2)
      (fun h => (hchars _ h).1 rfl) hstop
    rw [if_neg Bool.false_ne_true, if_neg hnoquote, hskip]
    refine ⟨[], List.forall_mem_nil _, ?_⟩
    rcases hfollow with ⟨rfl, rfl⟩ | rfl
    · rfl
    · rw [List.tail_cons, DigestParam.blanks, if_pos hblank, List.singleton_append,
        List.dropWhile_cons_of_pos (by rfl), dropWhile_blank hnext, List.nil_append]

/-! ### All parameters -/

def digestTail (p : DigestParam) (ps : List DigestParam) : List Byte :=
  if ps = [] then [] else COMMA :: (p.blanks ++ digestText ps)

theorem digestText_cons (p : DigestParam) (ps : List DigestParam) :
    digestText (p :: ps) = p.name ++ 61 :: (p.valueText ++ digestTail p ps) := by
  cases ps with
  | nil =>
    rw [digestTail, if_pos rfl, List.append_nil]
    rfl
  | cons p' ps =>
    rw [digestTail, if_neg (List.cons_ne_nil _ _)]
    rfl

theorem digestText_head (ps : List DigestParam) : ∀ c ∈ (digestText ps).head?, isspace c = false := by
  cases ps with
  | nil => rintro c ⟨⟩
  | cons p ps =>
    rw [digestText_cons]
    obtain ⟨c, name, hname⟩ := List.exists_cons_of_ne_nil p.named.1
    rw [hname]
    rintro d ⟨⟩
    exact (p.named.2 c (hname ▸ List.mem_cons_self)).2.2

theorem digestTail_follows (p : DigestParam) (ps : List DigestParam) :
    Follows p (digestTail p ps) (digestText ps) := by
  refine ⟨?_, fun h => absurd (digestText_head ps SP h) (by decide)⟩
  unfold digestTail
  split_ifs with h
  · exact Or.inl ⟨rfl, by rw [h]; rfl⟩
  · exact Or.inr rfl

theorem digestText_skip (ps : List DigestParam) {blanks : List Byte} (hblanks : ∀ c ∈ blanks, isspace c = true) :
    (blanks ++ digestText ps).dropWhile isspace = digestText ps := by
  rw [List.dropWhile_append_of_pos hblanks]
  cases htext : digestText ps with
  | nil => rfl
  | cons c text =>
    have hc := digestText_head ps c (by rw [htext]; rfl)
    rw [List.dropWhile_cons_of_neg (by simp [hc])]

theorem valueText_head (p : DigestParam) {tail next : List Byte} (htail : Follows p tail next) :
    (p.valueText ++ tail).head? ≠ some SP := by
  have hvalued := p.valued
  unfold DigestParam.valueText
  split_ifs at hvalued ⊢
  · rw [List.cons_append, List.head?_cons]
    decide
  · cases hvalue : p.value with
    | nil =>
      rcases htail.1 with ⟨rfl, -⟩ | rfl
      · exact (Option.some_ne_none _).symm
      · rw [List.nil_append, List.head?_cons]
        decide
    | cons c value =>
      rw [hvalue] at hvalued
      rw [List.cons_append, List.head?_cons]
      exact fun h => (hvalued.1 c List.mem_cons_self).2.2 (Option.some.inj h)

/-- The loop sets one parameter after the other. -/
theorem authFields_digestText (ps : List DigestParam) (n : Nat) (blanks : List Byte) (h : AuthHeader)
    (hblanks : ∀ c ∈ blanks, isspace c = true) (hn : (blanks ++ digestText ps).length < n) :
    authFields n (blanks ++ digestText ps) h = ps.foldl (fun h p => h.set p.name p.value) h := by
  induction ps generalizing n blanks h with
  | nil =>
    obtain ⟨n, rfl⟩ : ∃ m, n = m + 1 := ⟨n - 1, by omega⟩
    rw [authFields, digestText_skip [] hblanks]
    rfl
  | cons p ps ih =>
    obtain ⟨n, rfl⟩ : ∃ m, n = m + 1 := ⟨n - 1, by omega⟩
    have hfollows := digestTail_follows p ps
    obtain ⟨more, hmore, hvalue⟩ := authValue_param p hfollows
    have hname : skipQuoted (p.name ++ 61 :: (p.valueText ++ digestTail p ps)) [61] [SP] NUL =
        (p.name, p.valueText ++ digestTail p ps) := by
      rw [skipQuoted_word [SP] (fun c hc => by simpa using (p.named.2 c hc).2.1)
        (fun h => (p.named.2 _ h).1 rfl) (by rintro c ⟨⟩; exact List.mem_cons_self), List.tail_cons,
        dropWhile_blank (valueText_head p hfollows)]
    have hlen := authValue_length (p.valueText ++ digestTail p ps)
    rw [hvalue] at hlen
    dsimp only at hlen
    rw [digestText_cons, List.length_append, List.length_append, List.length_cons] at hn
    rw [authFields, digestText_skip (p :: ps) hblanks, digestText_cons, hname]
    dsimp only
    rw [hvalue]
    dsimp only
    rw [if_neg p.named.1, ih n more _ hmore (by omega), List.foldl_cons]

/-! ### The last of each name -/

theorem AuthHeader.set_eq (h : AuthHeader) (name value : List Byte) :
    h.set name value =
      { h with
        user := if name = ascii "username" then some value else h.user
        uri := if name = ascii "uri" then some value else h.uri
        cnonce := if name = ascii "cnonce" then some value else h.cnonce
        response := if name = ascii "response" then some value else h.response
        qop := if name = ascii "qop" then some value else h.qop
        nc := if name = ascii "nc" then some value else h.nc
        nonce := if name = ascii "nonce" then some value else h.nonce } := by
  unfold AuthHeader.set
  by_cases h1 : name = ascii "username"
  · subst h1
    rfl
  by_cases h2 : name = ascii "cnonce"
  · subst h2
    rfl
  by_cases h3 : name = ascii "response"
  · subst h3
    rfl
  by_cases h4 : name = ascii "uri"
  · subst h4
    rfl
  by_cases h5 : name = ascii "qop"
  · subst h5
    rfl
  by_cases h6 : name = ascii "nc"
  · subst h6
    rfl
  by_cases h7 : name = ascii "nonce"
  · subst h7
    rfl
  simp only [if_neg h1, if_neg h2, if_neg h3, if_neg h4, if_neg h5, if_neg h6, if_neg h7]

theorem lastValue_concat (ps : List DigestParam) (p : DigestParam) (name : List Byte) :
    lastValue (ps ++ [p]) name = if p.name = name then some p.value else lastValue ps name := by
  rw [lastValue, List.filter_append]
  split_ifs with h
  · rw [List.filter_cons_of_pos (by simpa using h), List.filter_nil, List.getLast?_concat, Option.map_some]
  · rw [List.filter_cons_of_neg (by simpa using h), List.filter_nil, List.append_nil, lastValue]

/-- The fields of a digest: the last value of each name. -/
def digestHeader (params : List DigestParam) : AuthHeader where
  user := lastValue params (ascii "username")
  type := 2
  plainPassword := none
  uri := lastValue params (ascii "uri")
  cnonce := lastValue params (ascii "cnonce")
  response := lastValue params (ascii "response")
  qop := lastValue params (ascii "qop")
  nc := lastValue params (ascii "nc")
  nonce := lastValue params (ascii "nonce")

theorem foldl_set (params : List DigestParam) :
    params.foldl (fun h p => h.set p.name p.value) { AuthHeader.zero with type := 2 } = digestHeader params := by
  induction params using List.reverseRecOn with
  | nil => rfl
  | append_singleton params p ih =>
    rw [List.foldl_append, List.foldl_cons, List.foldl_nil, ih, AuthHeader.set_eq, digestHeader, digestHeader]
    simp only [lastValue_concat]

theorem escaped_noNul {value : List Byte} (h : NUL ∉ value) : NUL ∉ escaped value := by
  unfold escaped
  rw [List.mem_flatMap]
  rintro ⟨c, hc, hmem⟩
  split_ifs at hmem
  · revert hmem
    decide
  · rw [List.mem_singleton] at hmem
    exact h (hmem ▸ hc)

theorem digestText_noNul (params : List DigestParam) : NUL ∉ digestText params := by
  induction params with
  | nil => exact List.not_mem_nil
  | cons p ps ih =>
    have hname : NUL ∉ p.name := fun h => (p.named.2 _ h).1 rfl
    have hvalue : NUL ∉ p.valueText := by
      have hvalued := p.valued
      unfold DigestParam.valueText
      split_ifs at hvalued ⊢
      · have := escaped_noNul fun h => (hvalued _ h).1 rfl
        simp [this]
        decide
      · exact fun h => (hvalued.1 _ h).1 rfl
    have htail : NUL ∉ digestTail p ps := by
      unfold digestTail DigestParam.blanks
      split_ifs
      · exact List.not_mem_nil
      · simp [ih]
        decide
      · simp [ih]
        decide
    rw [digestText_cons]
    simp [hname, hvalue, htail]
    decide

/-- The loop of `parse_auth_header` on its buffer ends, with each field at the last value of its name and
no value of another. -/
theorem digestLoop_fields (params : List DigestParam) (bufSize n : Nat)
    (hfit : (digestText params).length < bufSize) (hn : (digestText params).length < n) :
    ∃ buf h, digestLoop n (mgStrlcpy (digestText params) bufSize) 0 .zero = some (buf, h) ∧
      h.read buf = digestHeader params := by
  have hcopy : mgStrlcpy (digestText params) bufSize = digestText params :=
    List.take_of_length_le (by omega)
  obtain ⟨buf, h, hloop, hread⟩ := digestLoop_eq n [] (digestText params) .zero (digestText_noNul params) hn
    (fun q hq => by revert hq; simp [AuthPointers.Has, AuthPointers.zero])
  refine ⟨buf, h, by rw [hcopy]; exact hloop, hread.trans ?_⟩
  rw [← foldl_set]
  exact authFields_digestText params n [] _ (List.forall_mem_nil _) hn

/-- A user whose name has a quote in it, given twice. -/
def quotedUsers : List DigestParam :=
  [⟨ascii "username", ascii "a\"b\"", true, true, by decide, by decide, Or.inl rfl⟩,
    ⟨ascii "qop", ascii "auth", false, true, by decide, by decide, Or.inr rfl⟩,
    ⟨ascii "username", [], true, false, by decide, by decide, Or.inl rfl⟩,
    ⟨ascii "nc", ascii "1", false, true, by decide, by decide, Or.inr rfl⟩]

theorem digestLoop_fields_quoted : ∃ buf h,
    digestLoop 60 (mgStrlcpy (ascii "username=\"a\\\"b\\\"\", qop=auth, username=\"\",nc=1") MG_BUF_LEN) 0 .zero =
      some (buf, h) ∧ h.read buf = ⟨some [], 2, none, none, none, none, some (ascii "auth"),
        some (ascii "1"), none⟩ :=
  digestLoop_fields quotedUsers MG_BUF_LEN 60 (by decide +kernel) (by decide +kernel)

end CivetWeb
