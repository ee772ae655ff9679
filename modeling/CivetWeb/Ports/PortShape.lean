import CivetWeb.Ports.ParsePort

namespace CivetWeb

/-! ### Where a number ends -/

/-- `s` is read up to `rest`, and the last byte that is read is a digit. -/
def ReadTo (s rest : List Byte) : Prop :=
  ∃ init d, s = init ++ d :: rest ∧ isxdigit d = true ∧ COMMA ∉ init

theorem isDigitIn_isxdigit (base : Nat) (d : Byte) (hbase : base ≤ 16) (h : isDigitIn base d = true) :
    isxdigit d = true := by
  rw [isxdigit_isDigitIn]
  simp only [isDigitIn, Bool.and_eq_true, decide_eq_true_eq] at h ⊢
  exact ⟨h.1, by omega⟩

theorem isxdigit_ne_comma (d : Byte) (h : isxdigit d = true) : d ≠ COMMA := by
  rintro rfl
  cases h

theorem readTo_append {before s rest : List Byte} (hbefore : COMMA ∉ before) (h : ReadTo s rest) :
    ReadTo (before ++ s) rest := by
  obtain ⟨init, d, rfl, hd, hinit⟩ := h
  refine ⟨before ++ init, d, (List.append_assoc _ _ _).symm, hd, ?_⟩
  rw [List.mem_append, not_or]
  exact ⟨hbefore, hinit⟩

theorem strtoDigits_readTo (base : Nat) (p : List Byte) (m : Nat) (rest : List Byte) (hbase : base ≤ 16)
    (h : strtoDigits base p = some (m, rest)) : ReadTo p rest := by
  obtain ⟨pre, q, hp, hpre, hq⟩ : ∃ pre q, p = pre ++ q ∧ COMMA ∉ pre ∧
      q = if base = 16 ∧ deref p = 48 ∧ (deref p.tail = 120 ∨ deref p.tail = 88) ∧
        isxdigit (deref p.tail.tail) = true then p.tail.tail else p := by
    split_ifs with hx
    · obtain ⟨-, hzero, hx, -⟩ := hx
      have hp := deref_eq_cons hzero (by decide)
      rcases hx with hx | hx
      · have hp' := deref_eq_cons hx (by decide)
        exact ⟨[48, 120], p.tail.tail, by rw [hp, hp']; rfl, by decide, rfl⟩
      · have hp' := deref_eq_cons hx (by decide)
        exact ⟨[48, 88], p.tail.tail, by rw [hp, hp']; rfl, by decide, rfl⟩
    · exact ⟨[], p, rfl, by simp, rfl⟩
  unfold strtoDigits at h
  dsimp only at h
  rw [← hq] at h
  split_ifs at h with hnil
  obtain ⟨-, hrest⟩ := Prod.mk.inj (Option.some.inj h)
  have hdigits := Scan.takeWhile_all (isDigitIn base) q
  have hsplit := List.takeWhile_append_dropWhile (p := isDigitIn base) (l := q)
  obtain ⟨ds, d, hds⟩ := (List.eq_nil_or_concat _).resolve_left hnil
  have hxdigit (c : Byte) (hc : c ∈ q.takeWhile (isDigitIn base)) : isxdigit c = true :=
    isDigitIn_isxdigit base c hbase (hdigits c hc)
  rw [hds] at hxdigit hsplit
  rw [hp]
  refine readTo_append hpre ⟨ds, d, ?_, hxdigit d (by simp), ?_⟩
  · rw [← hsplit, hrest]
    simp
  · intro hc
    exact isxdigit_ne_comma _ (hxdigit COMMA (by simp [hc])) rfl

/-- The text behind the blanks and the sign in front of a number. -/
def behindSign (s : List Byte) : List Byte :=
  let p := s.dropWhile isspace
  if deref p = 45 ∨ deref p = 43 then p.tail else p

theorem strtol_readTo (base : Nat) (s : List Byte) (hbase : base ≤ 16) :
    (strtoDigits base (behindSign s) = none ∧ (strtol base s).rest = s) ∨ ReadTo s (strtol base s).rest := by
  obtain ⟨p, hp⟩ : ∃ p, p = s.dropWhile isspace := ⟨_, rfl⟩
  have hspace : s = s.takeWhile isspace ++ p := by rw [hp, List.takeWhile_append_dropWhile]
  have hblank : COMMA ∉ s.takeWhile isspace := fun h => by
    have hc := Scan.takeWhile_all isspace s COMMA h
    cases hc
  obtain ⟨sign, q, hsign, hq, hq'⟩ : ∃ sign q, p = sign ++ q ∧ COMMA ∉ sign ∧
      q = behindSign s := by
    rw [behindSign, ← hp]
    split_ifs with hs
    · rcases hs with hs | hs
      · exact ⟨[45], p.tail, deref_eq_cons hs (by decide), by decide, rfl⟩
      · exact ⟨[43], p.tail, deref_eq_cons hs (by decide), by decide, rfl⟩
    · exact ⟨[], p, rfl, by simp, rfl⟩
  have hread : (strtol base s).rest = ((strtoDigits base q).map (·.2)).getD s := by
    rw [hq', strtol, ← behindSign]
    cases strtoDigits base (behindSign s) <;> rfl
  rw [hread, ← hq']
  cases hd : strtoDigits base q with
  | none => exact .inl ⟨rfl, rfl⟩
  | some r =>
    refine .inr ?_
    rw [Option.map_some, Option.getD_some, hspace, hsign]
    exact readTo_append hblank (readTo_append hq (strtoDigits_readTo base q r.1 r.2 hbase hd))

theorem scanUnsigned_readTo (s : List Byte) (v : Nat) (rest : List Byte) (h : scanUnsigned s = some (v, rest)) :
    ReadTo s rest := by
  have hread := strtol_readTo 10 s (by decide)
  have hscan : scanUnsigned s = if (strtoDigits 10 (behindSign s)).isNone then none
      else some ((strtoul 10 s).1 % 2 ^ 32, (strtol 10 s).rest) := rfl
  rw [hscan] at h
  split_ifs at h with hnone
  obtain ⟨-, rfl⟩ := Prod.mk.inj (Option.some.inj h)
  refine hread.resolve_left fun hstuck => hnone ?_
  rw [hstuck.1]
  rfl

theorem strtoulAuto_readTo (s : List Byte) : (strtoulAuto s).2 = s ∨ ReadTo s (strtoulAuto s).2 := by
  have hbase (base : Nat) (hle : base ≤ 16) : (strtoul base s).2 = s ∨ ReadTo s (strtoul base s).2 :=
    (strtol_readTo base s hle).imp And.right id
  have hauto : strtoulAuto s = if deref (behindSign s) ≠ 48 then strtoul 10 s
      else if (deref (behindSign s).tail = 120 ∨ deref (behindSign s).tail = 88) ∧
        isxdigit (deref (behindSign s).tail.tail) = true then strtoul 16 s else strtoul 8 s := rfl
  rw [hauto]
  split_ifs
  · exact hbase 10 (by decide)
  · exact hbase 16 (by decide)
  · exact hbase 8 (by decide)

/-- The first `k` bytes end in a digit. -/
def NumberEnds (s : List Byte) (k : Nat) : Prop :=
  ∃ init d rest, s = init ++ d :: rest ∧ isxdigit d = true ∧ k = init.length + 1

theorem numberEnds_append {s : List Byte} {k : Nat} (before : List Byte) (h : NumberEnds s k) :
    NumberEnds (before ++ s) (before.length + k) := by
  obtain ⟨init, d, rest, rfl, hd, rfl⟩ := h
  refine ⟨before ++ init, d, rest, (List.append_assoc _ _ _).symm, hd, ?_⟩
  rw [List.length_append]
  omega

theorem readTo_numberEnds {s rest : List Byte} (h : ReadTo s rest) :
    ∃ k, NumberEnds s k ∧ k + rest.length = s.length ∧ k ≤ (s.takeWhile (· != COMMA)).length := by
  obtain ⟨init, d, rfl, hd, hinit⟩ := h
  refine ⟨init.length + 1, ⟨init, d, rest, rfl, hd, rfl⟩, ?_, ?_⟩
  · simp only [List.length_append, List.length_cons]
    omega
  · have hinit' : ∀ c ∈ init, (c != COMMA) = true := fun c hc => bne_iff_ne.mpr fun h => hinit (h ▸ hc)
    have hd' : (d != COMMA) = true := bne_iff_ne.mpr (isxdigit_ne_comma d hd)
    rw [List.takeWhile_append_of_pos hinit', List.takeWhile_cons_of_pos (p := (· != COMMA)) hd',
      List.length_append, List.length_cons]
    omega

/-- A format that ends in `%u%n` reads up to a digit. -/
theorem sscanf_numberEnds (fmt : List ScanDirective) (hfmt : ScanDirective.consumed ∉ fmt) (s : List Byte)
    (pos n : Nat) (h : (sscanf (fmt ++ [ScanDirective.unsigned, .consumed]) s pos).n = some n) :
    ∃ k, n = pos + k ∧ NumberEnds s k := by
  induction fmt generalizing s pos with
  | nil =>
    rw [List.nil_append, sscanf] at h
    cases hu : scanUnsigned s with
    | none =>
      rw [hu] at h
      cases h
    | some r =>
      obtain ⟨v, rest⟩ := r
      obtain ⟨k, hk, hlen, -⟩ := readTo_numberEnds (scanUnsigned_readTo s v rest hu)
      rw [hu] at h
      have hn : pos + (s.length - rest.length) = n := Option.some.inj h
      exact ⟨k, by omega, hk⟩
  | cons d fmt ih =>
    rw [List.cons_append] at h
    have ih := ih (List.not_mem_of_not_mem_cons hfmt)
    cases d with
    | lit c =>
      cases s with
      | nil =>
        rw [sscanf] at h
        cases h
      | cons a s =>
        rw [sscanf] at h
        split_ifs at h
        obtain ⟨k, hn, hk⟩ := ih s (pos + 1) h
        exact ⟨1 + k, by omega, numberEnds_append [a] hk⟩
    | unsigned =>
      rw [sscanf] at h
      cases hu : scanUnsigned s with
      | none =>
        rw [hu] at h
        cases h
      | some r =>
        obtain ⟨v, rest⟩ := r
        obtain ⟨init, e, rfl, -, -⟩ := scanUnsigned_readTo s v rest hu
        rw [hu] at h
        obtain ⟨k, hn, hk⟩ := ih rest _ h
        have happend := numberEnds_append (init ++ [e]) hk
        rw [List.append_assoc] at happend
        refine ⟨(init ++ [e]).length + k, ?_, happend⟩
        rw [hn]
        simp only [List.length_append, List.length_cons, List.length_nil]
        omega
    | notIn width stop =>
      rw [sscanf] at h
      dsimp only at h
      split_ifs at h
      obtain ⟨k, hn, hk⟩ := ih _ _ h
      obtain ⟨text, htext⟩ : ∃ text, text = (s.take width).takeWhile (· != stop) := ⟨_, rfl⟩
      have htaken : text <+: s := by
        rw [htext]
        exact (List.takeWhile_prefix _).trans (List.take_prefix _ _)
      rw [← htext] at hn hk
      clear htext h
      obtain ⟨rest, rfl⟩ := htaken
      rw [List.drop_left] at hk
      exact ⟨text.length + k, by omega, numberEnds_append text hk⟩
    | consumed => exact absurd List.mem_cons_self hfmt

/-- Without a text in the format no comma is read either. -/
theorem sscanf_inEntry (fmt : List ScanDirective) (hfmt : ∀ d ∈ fmt, d = .unsigned ∨ ∃ c, d = .lit c ∧ c ≠ COMMA)
    (s : List Byte) (n : Nat) (h : (sscanf (fmt ++ [ScanDirective.unsigned, .consumed]) s 0).n = some n) :
    NumberEnds s n ∧ n ≤ (s.takeWhile (· != COMMA)).length := by
  have hnone : ScanDirective.consumed ∉ fmt := by
    intro hmem
    rcases hfmt _ hmem with hd | ⟨c, hd, -⟩ <;> cases hd
  obtain ⟨k, hn, hk⟩ := sscanf_numberEnds fmt hnone s 0 n h
  rw [Nat.zero_add] at hn
  have hstop := sscanf_stop COMMA rfl (fmt ++ [ScanDirective.unsigned, .consumed]) (by
    intro d hd
    rcases List.mem_append.mp hd with hd | hd
    · exact (hfmt d hd).imp_right .inr
    · simp only [List.mem_cons, List.not_mem_nil, or_false] at hd
      exact hd.imp_right .inl) s 0 n h
  rw [Nat.zero_add] at hstop
  exact ⟨hn ▸ hk, hstop⟩

theorem scanPort_inEntry (s : List Byte) (port n : Nat) (h : scanPort s = some (port, n)) :
    NumberEnds s n ∧ n ≤ (s.takeWhile (· != COMMA)).length := by
  unfold scanPort at h
  split at h
  · rename_i port' n' hscan
    obtain ⟨-, rfl⟩ := Prod.mk.inj (Option.some.inj h)
    exact sscanf_inEntry [] (by simp) s n' (by rw [List.nil_append, hscan])
  · cases h

/-- A byte that is no blank is not cut off the end. -/
theorem lt_rdropWhile {value : List Byte} {j : Nat} {c : Byte} (h : value[j]? = some c)
    (hc : isblank c = false) : j < (value.rdropWhile isblank).length := by
  by_contra hge
  have hsplit : value.rdropWhile isblank ++ value.rtakeWhile isblank = value :=
    List.rdropWhile_append_rtakeWhile
  rw [← hsplit, List.getElem?_append_right (by omega)] at h
  have hblank := List.mem_rtakeWhile_imp (List.mem_of_getElem? h)
  rw [hc] at hblank
  cases hblank

/-- An entry goes on behind a digit, up to the comma or the blanks in front of it. -/
theorem numberEnds_entry {s : List Byte} {k : Nat} (h : NumberEnds s k)
    (hk : k ≤ (s.takeWhile (· != COMMA)).length) :
    k ≤ ((s.takeWhile (· != COMMA)).rdropWhile isblank).length := by
  obtain ⟨init, d, rest, hs, hd, rfl⟩ := h
  obtain ⟨value, hvalue⟩ : ∃ value, value = s.takeWhile (· != COMMA) := ⟨_, rfl⟩
  have hget : value[init.length]? = some d := by
    have htake := List.prefix_iff_eq_take.mp (hvalue ▸ List.takeWhile_prefix _ : value <+: s)
    rw [htake, List.getElem?_take_of_lt (hvalue ▸ hk), hs, List.getElem?_append_right le_rfl, Nat.sub_self]
    rfl
  have hblank : ∀ c, isxdigit c = true → isblank c = false := byte_all _ (by decide +kernel)
  rw [← hvalue]
  exact lt_rdropWhile hget (hblank d hd)

def PortScan.IsUnix (p : PortScan) : Prop := ∃ path, p.lsa = .unix path

/-- The address and the port end in a digit within the entry; `len` may be cut to an `int`. -/
def PortScan.EndsIn (p : PortScan) (ptr : List Byte) (vecLen : Nat) : Prop :=
  ¬ p.IsUnix ∧ ∃ k, NumberEnds ptr k ∧ k ≤ vecLen ∧ p.len ≤ k

section
variable (b : PortBuild) (ptr : List Byte) (vecLen : Nat) (p : PortScan)

theorem scanBrackets_ends (h : scanBrackets b ptr vecLen = some p) : p.EndsIn ptr vecLen := by
  unfold scanBrackets at h
  split_ifs at h with hipv6
  split at h
  · rename_i n hscan
    split_ifs at h with hn
    obtain ⟨addr, -, rfl⟩ := Option.map_eq_some_iff.mp h
    obtain ⟨k, hk, hends⟩ := sscanf_numberEnds [.lit LBRACKET, .notIn 49 RBRACKET, .lit RBRACKET, .lit COLON]
      (by decide) ptr 0 n (congrArg Scanned.n hscan)
    rw [Nat.zero_add] at hk
    exact ⟨nofun, n, hk ▸ hends, hn, le_rfl⟩
  · cases h

variable (hlen : vecLen = ((ptr.takeWhile (· != COMMA)).rdropWhile isblank).length)
include hlen

theorem scanDotted_ends (h : scanDotted ptr = some p) : p.EndsIn ptr vecLen := by
  unfold scanDotted at h
  split at h
  · rename_i n hscan
    obtain rfl := Option.some.inj h
    obtain ⟨hends, hn⟩ := sscanf_inEntry (ipv4Format ++ [ScanDirective.lit COLON])
      (by unfold ipv4Format; simp +decide) ptr n (by
      rw [List.append_assoc]
      exact congrArg Scanned.n hscan)
    exact ⟨nofun, n, hends, hlen ▸ numberEnds_entry hends hn, le_rfl⟩
  · cases h

theorem scanPlus_ends (h : scanPlus b ptr = some p) : p.EndsIn ptr vecLen := by
  unfold scanPlus at h
  by_cases hplus : deref ptr ≠ PLUS
  · rw [if_pos hplus] at h
    cases h
  · rw [if_neg hplus] at h
    obtain ⟨⟨port, n⟩, hscan, hp⟩ := Option.map_eq_some_iff.mp h
    obtain ⟨hends, hn⟩ := scanPort_inEntry _ port n hscan
    have hptr := deref_eq_cons (not_not.mp hplus) (by decide)
    have hends' : NumberEnds ptr (n + 1) := by
      rw [hptr, Nat.add_comm]
      exact numberEnds_append [PLUS] hends
    have hn' : n + 1 ≤ (ptr.takeWhile (· != COMMA)).length := by
      rw [hptr, List.takeWhile_cons_of_pos (p := (· != COMMA)) (by decide), List.length_cons]
      omega
    have hp' : p.len = (n + 1 : Nat) ∧ ¬ p.IsUnix := by
      rw [← hp]
      dsimp only
      split_ifs
      · exact ⟨rfl, nofun⟩
      · exact ⟨rfl, nofun⟩
    exact ⟨hp'.2, n + 1, hends', hlen ▸ numberEnds_entry hends' hn', hp'.1.le⟩

theorem scanNumber_ends (h : scanNumber ptr = some p) : p.EndsIn ptr vecLen := by
  unfold scanNumber at h
  dsimp only at h
  split_ifs at h with hvalid
  obtain rfl := Option.some.inj h
  have hread := (strtoulAuto_readTo ptr).resolve_left fun h => hvalid.2 (congrArg List.length h)
  obtain ⟨k, hends, hk, hn⟩ := readTo_numberEnds hread
  refine ⟨nofun, k, hends, hlen ▸ numberEnds_entry hends hn, ?_⟩
  dsimp only
  rw [toInt32]
  split_ifs <;> omega

/-- A port behind a host name. -/
theorem hostPort_ends (port n : Nat) (hcolon : COLON ∈ ptr)
    (hhost : (ptr.takeWhile (· != COLON)).length < vecLen)
    (h : scanPort (ptr.dropWhile (· != COLON)).tail = some (port, n)) :
    ∃ k, NumberEnds ptr k ∧ k ≤ vecLen ∧ (n : Int) + ((ptr.takeWhile (· != COLON)).length + 1) = k := by
  obtain ⟨hends, hn⟩ := scanPort_inEntry _ port n h
  obtain ⟨host, hhostname⟩ : ∃ host, host = ptr.takeWhile (· != COLON) := ⟨_, rfl⟩
  have hcb : deref (ptr.dropWhile (· != COLON)) = COLON := by
    cases hd : ptr.dropWhile (· != COLON) with
    | nil => simpa using List.dropWhile_eq_nil_iff.mp hd COLON hcolon
    | cons c t =>
      have hstop := Scan.head_dropWhile (· != COLON) ptr c (by rw [hd]; rfl)
      simpa using hstop
  have hptr : ptr = (host ++ [COLON]) ++ (ptr.dropWhile (· != COLON)).tail := by
    rw [List.append_assoc, List.singleton_append, ← deref_eq_cons hcb (by decide), hhostname,
      List.takeWhile_append_dropWhile]
  have hvec : vecLen ≤ (ptr.takeWhile (· != COMMA)).length := by
    rw [hlen]
    exact (List.rdropWhile_prefix _ _).length_le
  have hcomma : ∀ c ∈ host ++ [COLON], (c != COMMA) = true := by
    have hhost' : host <+: ptr.takeWhile (· != COMMA) := by
      rw [hhostname]
      exact List.prefix_of_prefix_length_le (List.takeWhile_prefix _) (List.takeWhile_prefix _) (by omega)
    intro c hc
    rcases List.mem_append.mp hc with hc | hc
    · exact Scan.takeWhile_all (· != COMMA) ptr c (hhost'.subset hc)
    · rw [List.mem_singleton.mp hc]
      rfl
  have hends' : NumberEnds ptr ((host ++ [COLON]).length + n) := by
    rw [hptr]
    exact numberEnds_append (host ++ [COLON]) hends
  have hn' : (host ++ [COLON]).length + n ≤ (ptr.takeWhile (· != COMMA)).length := by
    rw [hptr, List.takeWhile_append_of_pos hcomma]
    exact (Nat.add_le_add_left hn _).trans_eq List.length_append.symm
  rw [← hhostname]
  refine ⟨(host ++ [COLON]).length + n, hends', hlen ▸ numberEnds_entry hends' hn', ?_⟩
  rw [List.length_append, List.length_singleton]
  omega

theorem scanHost_ends (hcolon : COLON ∈ ptr) (h : scanHost b ptr vecLen = some p) : p.EndsIn ptr vecLen := by
  unfold scanHost at h
  dsimp only at h
  by_cases hlong : vecLen ≤ (ptr.takeWhile (· != COLON)).length ∨ 256 ≤ (ptr.takeWhile (· != COLON)).length
  · rw [if_pos hlong] at h
    cases h
  · rw [if_neg hlong] at h
    have hport := fun port n => hostPort_ends ptr vecLen hlen port n hcolon (by omega)
    split at h
    · obtain ⟨⟨port, n⟩, hscan, rfl⟩ := Option.map_eq_some_iff.mp h
      obtain ⟨k, hends, hk, hval⟩ := hport port n hscan
      exact ⟨nofun, k, hends, hk, hval.le⟩
    · split_ifs at h
      split at h
      · obtain ⟨⟨port, n⟩, hscan, rfl⟩ := Option.map_eq_some_iff.mp h
        obtain ⟨k, hends, hk, hval⟩ := hport port n hscan
        exact ⟨nofun, k, hends, hk, hval.le⟩
      · cases h

/-- Each way to write an address ends in a digit of the port, unless it is a socket file. -/
theorem scanAddress_ends (h : scanAddress b ptr vecLen = some p) :
    (p.IsUnix ∧ p.len = vecLen) ∨ p.EndsIn ptr vecLen := by
  unfold scanAddress at h
  rw [Option.or_eq_some_iff, Option.or_eq_some_iff, Option.or_eq_some_iff, Option.or_eq_some_iff] at h
  rcases h with hdotted | ⟨-, hbrackets | ⟨-, hplus | ⟨-, hnumber | ⟨-, hhost⟩⟩⟩⟩
  · exact .inr (scanDotted_ends ptr vecLen p hlen hdotted)
  · exact .inr (scanBrackets_ends b ptr vecLen p hbrackets)
  · exact .inr (scanPlus_ends b ptr vecLen p hlen hplus)
  · exact .inr (scanNumber_ends ptr vecLen p hlen hnumber)
  · split_ifs at hhost with hcolon
    · exact .inr (scanHost_ends b ptr vecLen p hlen hcolon hhost)
    · unfold scanUnix at hhost
      split_ifs at hhost
      obtain rfl := Option.some.inj hhost
      exact .inl ⟨⟨_, rfl⟩, rfl⟩

end

/-! ### The suffix -/

def isPortSuffix (c : Byte) : Bool := c == SUFFIX_OPTIONAL || c == SUFFIX_REDIR || c == SUFFIX_SSL

theorem setPortFlag_flags (f g : PortFlags) (c : Byte) (h : setPortFlag f c = some g) :
    isPortSuffix c = true ∧ g.isSsl = (f.isSsl || c == SUFFIX_SSL) ∧
      g.sslRedir = (f.sslRedir || c == SUFFIX_REDIR) := by
  unfold setPortFlag at h
  split_ifs at h with ho hset hr hset hs hset
  · obtain rfl := Option.some.inj h
    rw [ho]
    exact ⟨rfl, (Bool.or_false _).symm, (Bool.or_false _).symm⟩
  · obtain rfl := Option.some.inj h
    rw [hr]
    exact ⟨rfl, (Bool.or_false _).symm, (Bool.or_true _).symm⟩
  · obtain rfl := Option.some.inj h
    rw [hs]
    exact ⟨rfl, (Bool.or_true _).symm, (Bool.or_false _).symm⟩

theorem portSuffix_flags (f g : PortFlags) (s : List Byte) (h : portSuffix f s = some g) :
    (∀ c ∈ s, isPortSuffix c = true) ∧ g.isSsl = (f.isSsl || s.contains SUFFIX_SSL) ∧
      g.sslRedir = (f.sslRedir || s.contains SUFFIX_REDIR) := by
  induction s generalizing f with
  | nil =>
    obtain rfl := Option.some.inj h
    simp
  | cons c s ih =>
    rw [portSuffix] at h
    cases hc : setPortFlag f c with
    | none =>
      rw [hc] at h
      cases h
    | some f' =>
      rw [hc] at h
      obtain ⟨hsuffix, hssl, hredir⟩ := setPortFlag_flags f f' c hc
      obtain ⟨hall, hssl', hredir'⟩ := ih f' h
      refine ⟨fun a ha => ?_, ?_, ?_⟩
      · rcases List.mem_cons.mp ha with rfl | ha
        · exact hsuffix
        · exact hall a ha
      · rw [hssl', hssl, List.contains_cons, Bool.or_assoc, Bool.beq_comm]
      · rw [hredir', hredir, List.contains_cons, Bool.or_assoc, Bool.beq_comm]

theorem suffixAhead_append {s : List Byte} (t : List Byte) (h : suffixAhead s = true) :
    suffixAhead (s ++ t) = true := by
  cases s with
  | nil => cases h
  | cons c s =>
    cases s with
    | nil =>
      unfold suffixAhead at h ⊢
      rw [deref_cons] at h
      rw [List.singleton_append, deref_cons]
      split_ifs at h ⊢ with ho
      · cases h
      · exact h
    | cons d s => exact h

/-- The look ahead ends where no suffix character stands. -/
theorem suffixAhead_of_append {s t : List Byte} (ht : isPortSuffix (deref t) = false)
    (h : suffixAhead (s ++ t) = true) : suffixAhead s = true := by
  simp only [isPortSuffix, Bool.or_eq_false_iff, beq_eq_false_iff_ne] at ht
  obtain ⟨⟨ho, hr⟩, hs⟩ := ht
  have hnone : (deref t == SUFFIX_SSL || deref t == SUFFIX_REDIR) = false := by
    rw [beq_eq_false_iff_ne.mpr hs, beq_eq_false_iff_ne.mpr hr]
    rfl
  cases s with
  | nil =>
    unfold suffixAhead at h
    rw [List.nil_append, if_neg ho] at h
    dsimp only at h
    rw [hnone] at h
    cases h
  | cons c s =>
    cases s with
    | nil =>
      unfold suffixAhead at h ⊢
      rw [List.singleton_append, deref_cons, List.tail_cons] at h
      rw [deref_cons]
      split_ifs at h ⊢ with hc
      · rw [hnone] at h
        cases h
      · exact h
    | cons d s => exact h

/-- A suffix with a flag for TLS is found. -/
theorem portSuffix_ahead (s : List Byte) (g : PortFlags) (h : portSuffix ⟨false, false, false⟩ s = some g)
    (htls : g.isSsl = true ∨ g.sslRedir = true) : suffixAhead s = true := by
  cases s with
  | nil =>
    obtain rfl := Option.some.inj h
    rcases htls with htls | htls <;> cases htls
  | cons c s =>
    obtain ⟨hsuffix, -⟩ := portSuffix_flags _ g _ h
    have hc := hsuffix c (by simp)
    simp only [isPortSuffix, Bool.or_eq_true, beq_iff_eq] at hc
    rcases hc with (rfl | rfl) | rfl
    · cases s with
      | nil =>
        obtain rfl := Option.some.inj h
        rcases htls with htls | htls <;> cases htls
      | cons d s =>
        have hd := hsuffix d (by simp)
        simp only [isPortSuffix, Bool.or_eq_true, beq_iff_eq] at hd
        rcases hd with (rfl | rfl) | rfl
        · cases h
        · rfl
        · rfl
    · rfl
    · rfl

/-- A suffix that is found sets one. -/
theorem portSuffix_tls (s : List Byte) (g : PortFlags) (h : portSuffix ⟨false, false, false⟩ s = some g)
    (hahead : suffixAhead s = true) : g.isSsl = true ∨ g.sslRedir = true := by
  obtain ⟨-, hssl, hredir⟩ := portSuffix_flags _ g s h
  rw [hssl, hredir, Bool.false_or, Bool.false_or]
  simp only [List.contains_iff_mem]
  have hmem (t : List Byte) (c : Byte) (hc : c ≠ NUL) (ht : deref t = c) : c ∈ t := by
    rw [deref_eq_cons ht hc]
    exact List.mem_cons_self
  unfold suffixAhead at hahead
  simp only [Bool.or_eq_true, beq_iff_eq] at hahead
  split_ifs at hahead
  · exact hahead.imp (fun h => List.mem_of_mem_tail (hmem s.tail _ (by decide) h))
      (fun h => List.mem_of_mem_tail (hmem s.tail _ (by decide) h))
  · exact hahead.imp (hmem s _ (by decide)) (hmem s _ (by decide))

theorem isxdigit_noSuffix : ∀ c, isxdigit c = true → isPortSuffix c = false := byte_all _ (by decide +kernel)

/-- An accepted entry is a socket file, or has a suffix behind the last digit of its port. -/
theorem parsePortString_shape (b : PortBuild) (ptr : List Byte) (vecLen : Nat) (so : ListenSocket)
    (hlen : vecLen = ((ptr.takeWhile (· != COMMA)).rdropWhile isblank).length)
    (h : parsePortString b ptr vecLen = some so) :
    ((∃ path, so.lsa = .unix path) ∧ so.isSsl = false ∧ so.sslRedir = false) ∨
      ((¬ ∃ path, so.lsa = .unix path) ∧ ∃ number d suffix, ptr.take vecLen = number ++ d :: suffix ∧
        isxdigit d = true ∧ portSuffix ⟨false, false, false⟩ suffix = some so.toPortFlags) := by
  unfold parsePortString at h
  cases hscan : scanAddress b ptr vecLen with
  | none =>
    rw [hscan] at h
    cases h
  | some p =>
    rw [hscan] at h
    dsimp only at h
    split_ifs at h with hvalid
    cases hsuffix : portSuffix ⟨false, false, false⟩ ((ptr.take vecLen).drop p.len.toNat) with
    | none =>
      rw [hsuffix] at h
      cases h
    | some f =>
      rw [hsuffix] at h
      dsimp only at h
      split_ifs at h with hboth
      obtain rfl := Option.some.inj h
      dsimp only
      rcases scanAddress_ends b ptr vecLen p hlen hscan with ⟨hunix, hend⟩ | ⟨hunix, k, hends, hk, hle⟩
      · rw [hend, Int.toNat_natCast, List.drop_eq_nil_of_le (List.length_take_le _ _)] at hsuffix
        obtain rfl := Option.some.inj hsuffix
        exact .inl ⟨hunix, rfl, rfl⟩
      · refine .inr ⟨hunix, ?_⟩
        obtain ⟨number, d, rest, rfl, hd, rfl⟩ := hends
        obtain ⟨m, hm⟩ := Nat.exists_eq_add_of_le hk
        have htake : (number ++ d :: rest).take vecLen = number ++ d :: rest.take m := by
          rw [hm, List.take_append, List.take_of_length_le (by omega), Nat.add_assoc, Nat.add_sub_cancel_left,
            Nat.add_comm 1 m, List.take_succ_cons]
        rw [htake] at hsuffix ⊢
        refine ⟨number, d, rest.take m, rfl, hd, ?_⟩
        by_cases hshort : p.len.toNat ≤ number.length
        · -- Then `d` would be one of the suffix characters.
          have hmem : d ∈ (number ++ d :: rest.take m).drop p.len.toNat := by
            rw [List.drop_append_of_le_length hshort]
            simp
          have hbad := (portSuffix_flags _ f _ hsuffix).1 d hmem
          rw [isxdigit_noSuffix d hd] at hbad
          cases hbad
        · have hexact : p.len.toNat = number.length + 1 := by omega
          rw [hexact, List.drop_append, List.drop_eq_nil_of_le (Nat.le_succ _), Nat.add_sub_cancel_left] at hsuffix
          exact hsuffix

end CivetWeb
