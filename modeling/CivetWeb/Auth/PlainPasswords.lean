import CivetWeb.Auth.ModifyPasswords

namespace CivetWeb

/-! ### Passwords files without includes and odd records -/

/-- A line that is no include, and whose record, if it is one, `sscanf` reads as a whole. -/
def PlainAuthLine (line : List Byte) : Prop :=
  line.length ≤ 511 ∧
    match authLine line with
    | .skip => True
    | .incl _ => False
    | .entry user domain ha1 => user.length ≤ 255 ∧ domain ≠ [] ∧ domain.length ≤ 255 ∧ ha1 ≠ [] ∧
        ha1.length ≤ 255 ∧ ∀ c ∈ ha1, isspace c = false

theorem authLine_entry {buf u d ha1 : List Byte} (h : authLine buf = .entry u d ha1) :
    u ≠ [] ∧ (∀ c ∈ u, c ≠ COLON) ∧ (∀ c ∈ d, c ≠ COLON) ∧ ha1.rdropWhile isTrailing = ha1 ∧
      ∃ blanks, (∀ c ∈ blanks, isTrailing c = true) ∧
        cstr buf = u ++ COLON :: (d ++ COLON :: (ha1 ++ blanks)) := by
  unfold authLine at h
  have hsplit := List.rdropWhile_append_rtakeWhile (p := isTrailing) (l := cstr buf)
  have hstripped := List.rdropWhile_idempotent isTrailing (cstr buf)
  generalize (cstr buf).rdropWhile isTrailing = s at h hsplit hstripped
  dsimp only at h
  split_ifs at h with hempty hcolon hcomment hincl hdomain hha1
  obtain ⟨hu, hd, ha⟩ := AuthLine.entry.inj h
  have hs := Segments.split_first hdomain
  rw [Segments.split_first hha1, hu, hd, ha] at hs
  have hno (t : List Byte) : ∀ c ∈ t.takeWhile (· != COLON), c ≠ COLON := by
    intro c hc
    simpa using List.mem_takeWhile_imp hc
  refine ⟨?_, hu ▸ hno _, hd ▸ hno _, ?_, (cstr buf).rtakeWhile isTrailing, ?_, ?_⟩
  · rintro rfl
    exact hcolon (by rw [hs]; rfl)
  · rw [hs, Segments.rdropWhile_append_neg _ _ (by decide), Segments.rdropWhile_append_neg _ _ (by decide)] at hstripped
    simpa using hstripped
  · intro c hc
    rw [List.rtakeWhile, List.mem_reverse] at hc
    exact List.mem_takeWhile_imp (p := isTrailing) hc
  · conv_lhs => rw [← hsplit, hs]
    simp

/-- What `sscanf` finds, `read_auth_file` finds as well. -/
theorem authLine_scanned {line : List Byte} {r : AuthRecord} (h : scanRecord line = some r) :
    ∃ ha1, authLine line = .entry r.user r.domain ha1 := by
  obtain ⟨hnamed, -, -, huser, hdomain, -, blanks, more, -, heq⟩ := scanRecord_spec h
  exact ⟨_, authLine_fields heq hnamed huser hdomain⟩

/-- A field of the format that ends at a colon. -/
theorem scanField_colon {s : List Byte} (rest : List Byte) (hs : ∀ c ∈ s, c ≠ COLON) (hlen : s.length ≤ 255) :
    ((s ++ COLON :: rest).takeWhile (· != COLON)).take 255 = s ∧
      (s ++ COLON :: rest).drop s.length = COLON :: rest := by
  have hne : ∀ c ∈ s, (c != COLON) = true := fun c hc => by simpa using hs c hc
  exact ⟨by rw [Scan.takeWhile_stop _ _ _ _ hne (by rfl), List.take_of_length_le hlen], List.drop_left⟩

/-- On a plain line `sscanf` reads what `read_auth_file` reads. -/
theorem scanRecord_plain (fs : FileView) (depth : Nat) {line : List Byte} (h : PlainAuthLine line) :
    (scanRecord line).toList.map AuthRecord.stripped = lineRecords fs depth line := by
  obtain ⟨-, hline⟩ := h
  rw [lineRecords]
  cases hread : authLine line with
  | skip =>
    cases hscan : scanRecord line with
    | none => rfl
    | some r =>
      obtain ⟨ha1, hentry⟩ := authLine_scanned hscan
      rw [hread] at hentry
      cases hentry
  | incl file =>
    rw [hread] at hline
    exact hline.elim
  | entry u d ha1 =>
    rw [hread] at hline
    obtain ⟨hulen, hd0, hdlen, hha0, hhalen, hspace⟩ := hline
    obtain ⟨hu0, hu, hd, hstripped, blanks, hblanks, heq⟩ := authLine_entry hread
    obtain ⟨hu1, hu2⟩ := scanField_colon (d ++ COLON :: (ha1 ++ blanks)) hu hulen
    obtain ⟨hd1, hd2⟩ := scanField_colon (ha1 ++ blanks) hd hdlen
    have hskip : (ha1 ++ blanks).dropWhile isspace = ha1 ++ blanks := by
      obtain ⟨c, rest, rfl⟩ := List.exists_cons_of_ne_nil hha0
      rw [List.cons_append, List.dropWhile_cons_of_neg (by simp [hspace c List.mem_cons_self])]
    have htake : ((ha1 ++ blanks).takeWhile (fun c => !isspace c)).take 255 =
        ha1 ++ (blanks.takeWhile (fun c => !isspace c)).take (255 - ha1.length) := by
      rw [List.takeWhile_append_of_pos (fun c hc => by simp [hspace c hc]), List.take_append,
        List.take_of_length_le hhalen]
    have hscan : scanRecord line = some ⟨u, d, ha1 ++
        (blanks.takeWhile (fun c => !isspace c)).take (255 - ha1.length)⟩ := by
      unfold scanRecord
      rw [heq]
      dsimp only
      rw [hu1, hu2, if_neg (by simp [hu0]), List.tail_cons, hd1, hd2, if_neg (by simp [hd0]), List.tail_cons,
        hskip, htake, if_neg (by simp [hha0])]
    rw [hscan]
    have hend : (ha1 ++ (blanks.takeWhile (fun c => !isspace c)).take (255 - ha1.length)).rdropWhile
        isTrailing = ha1 := by
      rw [Segments.rdropWhile_append_pos _ _ fun c hc => hblanks c ?_, hstripped]
      exact (List.takeWhile_prefix _).subset (List.mem_of_mem_take hc)
    exact congrArg (fun h => [AuthRecord.mk u d h]) hend

theorem fgets_noFeeds {size : Nat} {content : List Byte} (h : LF ∉ content.take (size - 1)) :
    fgets size content = content.take (size - 1) := by
  have hall : ∀ c ∈ content.take (size - 1), (c != LF) = true := by
    intro c hc
    rw [bne_iff_ne]
    rintro rfl
    exact h hc
  unfold fgets
  dsimp only
  rw [List.takeWhile_eq_self_iff.mpr hall, List.dropWhile_eq_nil_iff.mpr hall, List.take_nil,
    List.append_nil]

/-- A line that does not fill the buffer ends in a line feed, or it is the rest of the file. -/
theorem fgets_short {size : Nat} {content : List Byte} (h : (fgets size content).length < size - 1) :
    (∃ body rest, content = body ++ LF :: rest ∧ LF ∉ body ∧ fgets size content = body ++ [LF]) ∨
      LF ∉ content ∧ fgets size content = content := by
  have hsplit := List.take_append_drop (size - 1) content
  have htake := List.length_take_le (size - 1) content
  by_cases hfeed : LF ∈ content.take (size - 1)
  · obtain ⟨body, rest, hchunk, hbody⟩ := List.eq_append_cons_of_mem hfeed
    rw [hchunk, List.append_assoc, List.cons_append] at hsplit
    rw [hchunk, List.length_append, List.length_cons] at htake
    refine Or.inl ⟨body, _, hsplit.symm, hbody, ?_⟩
    rw [← hsplit]
    exact fgets_line hbody (by omega)
  · have hline := fgets_noFeeds hfeed
    rw [hline] at h ⊢
    have hwhole : content.take (size - 1) = content := by
      rw [List.length_take] at h
      exact List.take_of_length_le (by omega)
    rw [hwhole] at hfeed ⊢
    exact Or.inr ⟨hfeed, rfl⟩

theorem fgets_same (content : List Byte) (h : (fgets (256 + 256 + 40) content).length ≤ 511) :
    fgets 512 content = fgets (256 + 256 + 40) content := by
  have hlt : (fgets (256 + 256 + 40) content).length < 256 + 256 + 40 - 1 := by omega
  rcases fgets_short hlt with ⟨body, rest, hcontent, hbody, hline⟩ | ⟨hfeed, hline⟩
  · rw [hline] at h ⊢
    rw [List.length_append] at h
    rw [hcontent]
    exact fgets_line hbody h
  · rw [hline] at h ⊢
    have hwhole : content.take (512 - 1) = content := List.take_of_length_le h
    rw [fgets_noFeeds (by rwa [hwhole]), hwhole]

/-- Short lines are the same for both buffers. -/
theorem fileLines_short (n : Nat) (content : List Byte)
    (hshort : ∀ line ∈ fileLines (256 + 256 + 40) n content, line.length ≤ 511) :
    fileLines 512 n content = fileLines (256 + 256 + 40) n content := by
  induction n generalizing content with
  | zero => rfl
  | succ n ih =>
    rw [fileLines] at hshort
    rw [fileLines, fileLines]
    by_cases hend : fgets (256 + 256 + 40) content = []
    · have hsame := fgets_same content (by rw [hend]; exact Nat.zero_le _)
      rw [hsame, if_pos hend, if_pos hend]
    · rw [if_neg hend] at hshort ⊢
      have hsame := fgets_same content (hshort _ List.mem_cons_self)
      rw [hsame, if_neg hend, ih _ fun line hline => hshort line (List.mem_cons_of_mem _ hline)]

/-- What is read off a line with a line feed is no longer than the line. -/
theorem scanRecord_length {body : List Byte} {r : AuthRecord} (h : scanRecord (body ++ [LF]) = some r) :
    r.text.length ≤ (body ++ [LF]).length := by
  obtain ⟨-, -, hha1, -, -, hspace, blanks, more, -, heq⟩ := scanRecord_spec h
  have hprefix := prefix_cstr (body ++ [LF])
  rw [heq] at hprefix
  have hpart : r.user ++ COLON :: (r.domain ++ COLON :: (blanks ++ r.ha1)) <+: body ++ [LF] := by
    refine List.IsPrefix.trans ⟨more, ?_⟩ hprefix
    simp
  rcases List.prefix_concat_iff.mp hpart with hall | hpart
  · obtain ⟨hash, c, hc⟩ := (List.eq_nil_or_concat r.ha1).resolve_left hha1
    have hlast := congrArg List.getLast? hall
    rw [hc] at hlast
    have hfeed : c = LF := by simpa [List.getLast?_append, List.getLast?_cons] using hlast
    have hno := hspace c (by rw [hc]; simp)
    rw [hfeed] at hno
    exact absurd hno (by decide)
  · have hlen := hpart.length_le
    simp only [List.length_append, List.length_cons, List.length_nil, AuthRecord.text] at hlen ⊢
    omega

/-- Short lines are all reached. -/
theorem reachedRecords_short (k : List Byte × List Byte) (new : Option AuthRecord) (tempBufLen : Nat)
    (hnew : ∀ r ∈ new, r.text.length ≤ k.1.length + k.2.length + 41) (n : Nat) (content : List Byte)
    (hshort : ∀ line ∈ fileLines (256 + 256 + 40) n content, line.length ≤ 511) (found : Bool) (offs : Nat)
    (hroom : offs + content.length + (if found then 0 else 38) + 600 < tempBufLen) :
    reachedRecords k new tempBufLen (fileLines (256 + 256 + 40) n content) found offs =
      (fileLines (256 + 256 + 40) n content).flatMap fun line => (scanRecord line).toList := by
  induction n generalizing content found offs with
  | zero => rfl
  | succ n ih =>
    rw [fileLines] at hshort ⊢
    by_cases hend : fgets (256 + 256 + 40) content = []
    · rw [if_pos hend]
      rfl
    rw [if_neg hend] at hshort ⊢
    have hrest : ∀ line ∈ fileLines (256 + 256 + 40) n (content.drop (fgets (256 + 256 + 40) content).length),
        line.length ≤ 511 := fun line hline => hshort line (List.mem_cons_of_mem _ hline)
    have hlt : (fgets (256 + 256 + 40) content).length < 256 + 256 + 40 - 1 := by
      have := hshort _ List.mem_cons_self
      omega
    rw [reachedRecords, if_pos (by omega), List.flatMap_cons]
    rcases fgets_short hlt with ⟨body, rest, hcontent, hbody, hline⟩ | ⟨hfeed, hline⟩
    · have hdrop : content.drop (fgets (256 + 256 + 40) content).length = rest := by
        rw [hline, hcontent, List.length_append]
        simp
      have hlen : content.length = (body ++ [LF]).length + rest.length := by
        rw [hcontent]
        simp
        omega
      rw [hdrop] at hrest ⊢
      rw [hline]
      cases hscan : scanRecord (body ++ [LF]) with
      | none => exact ih rest hrest found offs (by omega)
      | some r =>
        have htext := scanRecord_length hscan
        dsimp only
        by_cases hkey : r.key = k
        · have hpos := List.length_pos_of_ne_nil (scanRecord_spec hscan).2.2.1
          have hadd : (new.map fun r => r.text.length).getD 0 ≤ (body ++ [LF]).length + 38 := by
            cases hrecord : new with
            | none => exact Nat.zero_le _
            | some r' =>
              have hbound := hnew r' hrecord
              rw [← hkey] at hbound
              simp only [AuthRecord.text, AuthRecord.key, List.length_append, List.length_cons,
                List.length_nil, Option.map_some, Option.getD_some] at htext hbound ⊢
              omega
          have hnext : offs + (if found then 0 else (new.map fun r => r.text.length).getD 0) + rest.length +
              (if true then 0 else 38) + 600 < tempBufLen := by
            rw [if_pos rfl]
            cases found with
            | true =>
              rw [if_pos rfl] at hroom ⊢
              omega
            | false =>
              rw [if_neg Bool.false_ne_true] at hroom ⊢
              omega
          rw [if_pos hkey, ih rest hrest true _ hnext]
          rfl
        · rw [if_neg hkey, ih rest hrest found _ (by omega)]
          rfl
    · have hnone : fileLines (256 + 256 + 40) n (content.drop content.length) = [] := by
        rw [List.drop_length]
        exact fileLines_flatten [] (List.forall_mem_nil _) n (Nat.zero_le n)
      rw [hline, hnone, List.flatMap_nil, List.append_nil]
      cases hscan : scanRecord content with
      | none => rfl
      | some r =>
        dsimp only
        split_ifs <;> rfl

/-- A file of plain lines keeps the records of everybody else. -/
theorem firstsScanned_plain (fs : FileView) {content user domain : List Byte} {ha1 : Option (List Byte)}
    (hvalid : ∀ h ∈ ha1, ValidHash h)
    (hplain : ∀ line ∈ fileLines (256 + 256 + 40) content.length content, PlainAuthLine line) :
    FirstsScanned fs user domain ha1 content := by
  have hshort : ∀ line ∈ fileLines (256 + 256 + 40) content.length content, line.length ≤ 511 :=
    fun line hline => (hplain line hline).1
  have hnew : ∀ r ∈ newRecord user domain ha1, r.text.length ≤ user.length + domain.length + 41 := by
    intro r hr
    obtain ⟨hash, hhash, rfl⟩ := Option.map_eq_some_iff.mp hr
    have hmem : hash ∈ ha1 := by
      split_ifs at hhash
      exact hhash
    have := (hvalid hash hmem).1
    simp only [AuthRecord.text, List.length_append, List.length_cons, List.length_nil]
    omega
  have hreached := reachedRecords_short (user, domain) (newRecord user domain ha1) (content.length + 1024)
    hnew content.length content hshort false 0 (by rw [if_neg Bool.false_ne_true]; omega)
  have hsame : (reachedRecords (user, domain) (newRecord user domain ha1) (content.length + 1024)
      (fileLines 512 content.length content) false 0).map AuthRecord.stripped =
        authRecords fs INITIAL_DEPTH content := by
    rw [fileLines_short _ _ hshort, hreached, INITIAL_DEPTH, authRecords_succ, List.map_flatMap]
    exact List.flatMap_congr fun line hline => scanRecord_plain fs _ (hplain line hline)
  intro k _
  rw [hsame]

end CivetWeb
