import CivetWeb.Conn.HeaderOptions
import CivetWeb.Conn.OwnUri

namespace CivetWeb

/-! ### The parts of an absolute URI -/

def portText (port : Option (List Byte)) : List Byte := port.elim [] (COLON :: ·)

/-- `proto://host[:port]/path`, the protocol in any case of its letters. -/
structure AbsoluteUri (uri : List Byte) (proto : AbsUriProtocol) (host : List Byte) (port : Option (List Byte))
    (path : List Byte) : Prop where
  known : proto ∈ absUriProtocols
  text : ∃ scheme, scheme.map tolower = proto.proto ∧ uri = scheme ++ (host ++ (portText port ++ SLASH :: path))
  host_colon : COLON ∉ host
  host_slash : SLASH ∉ host
  port_slash : ∀ text ∈ port, SLASH ∉ text

def Digits (text : List Byte) : Prop := text ≠ [] ∧ ∀ c ∈ text, isdigit c = true

instance (text : List Byte) : Decidable (Digits text) := inferInstanceAs (Decidable (_ ∧ _))

/-- The number that decimal digits write. -/
def decimal (digits : List Byte) : Nat := Numeral.value 10 digitValue digits

/-- The port that a URI gives: the number behind the colon, or the protocol's without one. -/
def givenPort (proto : AbsUriProtocol) : Option (List Byte) → Option Nat
  | none => some proto.defaultPort
  | some text => if Digits text then some (decimal text) else none

/-- Digits behind blanks or a sign, which `strtoul` reads as `n`; a number behind a minus is taken from 2^64. -/
def SignedPort (text : List Byte) (n : Nat) : Prop :=
  ∃ blanks sign digits, text = blanks ++ (sign ++ digits) ∧ (∀ c ∈ blanks, isspace c = true) ∧
    blanks ++ sign ≠ [] ∧ Digits digits ∧
      ((sign = [] ∨ sign = [43]) ∧ decimal digits = n ∨ sign = [45] ∧ decimal digits + n = 2 ^ 64)

/-- The server's domain, or one below it. -/
def OwnHost (serverDomain host : List Byte) : Prop :=
  host = serverDomain ∨ ∃ sub, sub ≠ [] ∧ host = sub ++ DOT :: serverDomain

/-- The places of the `n` bytes that `memcmp` reads at `from`. -/
def memcmpReads (start : Int) (n : Nat) : List Int := (List.range n).map fun k : Nat => start + k

/-- The check of the host, see `inServerDomain`, over the memory that the host stands in: its result, and every place
that it reads, counted from the begin of the host. -/
def inServerDomainAt (mem : Int → Byte) (requestDomainLen : Nat) (serverDomain : List Byte) : Bool × List Int :=
  let n := serverDomain.length
  if n = 0 then (false, [])
  else
    let full := if requestDomainLen = n then memcmpReads 0 n else []
    if requestDomainLen = n ∧ full.map mem = serverDomain then (true, full)
    else if requestDomainLen < n + 2 then (false, full)
    else
      let dot : Int := requestDomainLen - n - 1
      if mem dot ≠ DOT then (false, full ++ [dot])
      else
        let suffix := memcmpReads (requestDomainLen - n) n
        (suffix.map mem == serverDomain, full ++ dot :: suffix)

/-- The check of a host in memory is that of `get_rel_url_at_current_server`, and reads nothing in front of the
host. -/
def HostReads (hostbegin : List Byte) (requestDomainLen : Nat) (serverDomain : List Byte) : Prop :=
  ∀ mem : Int → Byte, (∀ k : Nat, k < hostbegin.length → mem k = deref (hostbegin.drop k)) →
    (inServerDomainAt mem requestDomainLen serverDomain).1 = inServerDomain hostbegin requestDomainLen serverDomain ∧
      ∀ i ∈ (inServerDomainAt mem requestDomainLen serverDomain).2, 0 ≤ i

theorem memcmpReads_map {mem : Int → Byte} {hostbegin : List Byte}
    (hmem : ∀ k : Nat, k < hostbegin.length → mem k = deref (hostbegin.drop k)) (start : Nat) {n : Nat}
    (hin : start + n ≤ hostbegin.length) :
    (memcmpReads start n).map mem = (hostbegin.drop start).take n := by
  have hlen : ((hostbegin.drop start).take n).length = n := by
    rw [List.length_take, List.length_drop]
    omega
  apply List.ext_getElem
  · rw [hlen, List.length_map, memcmpReads, List.length_map, List.length_range]
  · intro k hk hk'
    rw [hlen] at hk'
    have hplace := hmem (start + k) (by omega)
    have hcons : hostbegin.drop (start + k) = hostbegin[start + k] :: hostbegin.drop (start + k + 1) :=
      List.drop_eq_getElem_cons (by omega)
    rw [hcons, deref_cons] at hplace
    simpa [memcmpReads] using hplace

theorem memcmpReads_nonneg {start : Int} (hstart : 0 ≤ start) (n : Nat) : ∀ i ∈ memcmpReads start n, 0 ≤ i := by
  intro i hi
  obtain ⟨k, -, rfl⟩ := List.mem_map.mp hi
  omega

theorem hostReads_begin (host tail serverDomain : List Byte) :
    HostReads (host ++ tail) host.length serverDomain := by
  intro mem hmem
  have hlen : (host ++ tail).length = host.length + tail.length := List.length_append
  have hfull : ∀ i ∈ (if host.length = serverDomain.length then memcmpReads 0 serverDomain.length else []),
      0 ≤ i := by
    intro i hi
    split_ifs at hi
    · exact memcmpReads_nonneg le_rfl _ i hi
    · cases hi
  have hsame : host.length = serverDomain.length →
      (memcmpReads 0 serverDomain.length).map mem = (host ++ tail).take serverDomain.length := fun h =>
    memcmpReads_map hmem 0 (by omega)
  rw [inServerDomainAt, inServerDomain]
  dsimp only
  by_cases hempty : serverDomain.length = 0
  · rw [if_pos hempty, if_pos hempty]
    exact ⟨rfl, List.forall_mem_nil _⟩
  rw [if_neg hempty, if_neg hempty]
  by_cases heq : host.length = serverDomain.length ∧ (host ++ tail).take serverDomain.length = serverDomain
  · have hread : host.length = serverDomain.length ∧ List.map mem (if host.length = serverDomain.length then
        memcmpReads 0 serverDomain.length else []) = serverDomain := by
      rw [if_pos heq.1, hsame heq.1]
      exact heq
    rw [if_pos hread, if_pos heq]
    exact ⟨rfl, hfull⟩
  have hread : ¬ (host.length = serverDomain.length ∧ List.map mem (if host.length = serverDomain.length then
      memcmpReads 0 serverDomain.length else []) = serverDomain) := by
    rintro ⟨hl, h⟩
    rw [if_pos hl, hsame hl] at h
    exact heq ⟨hl, h⟩
  rw [if_neg hread, if_neg heq]
  by_cases hshort : host.length < serverDomain.length + 2
  · rw [if_pos hshort, if_pos hshort]
    exact ⟨rfl, hfull⟩
  rw [if_neg hshort, if_neg hshort]
  have hdot : (host.length : Int) - serverDomain.length - 1 = (host.length - serverDomain.length - 1 : Nat) := by omega
  have hsuffix : (host.length : Int) - serverDomain.length = (host.length - serverDomain.length : Nat) := by omega
  rw [hdot, hsuffix, hmem _ (by omega)]
  generalize (if host.length = serverDomain.length then memcmpReads 0 serverDomain.length else []) = full at hfull
  have hdotted : ∀ i ∈ full ++ [((host.length - serverDomain.length - 1 : Nat) : Int)], 0 ≤ i := by
    intro i hi
    rcases List.mem_append.mp hi with hi | hi
    · exact hfull i hi
    · rw [List.mem_singleton.mp hi]
      exact Int.natCast_nonneg _
  by_cases hc : deref ((host ++ tail).drop (host.length - serverDomain.length - 1)) = DOT
  · rw [if_neg (not_not.mpr hc), if_neg (not_not.mpr hc), memcmpReads_map hmem _ (by omega)]
    refine ⟨rfl, fun i hi => ?_⟩
    rw [← List.singleton_append, ← List.append_assoc] at hi
    rcases List.mem_append.mp hi with hi | hi
    · exact hdotted i hi
    · exact memcmpReads_nonneg (Int.natCast_nonneg _) _ i hi
  · rw [if_pos hc, if_pos hc]
    exact ⟨rfl, hdotted⟩

/-! ### The port -/

theorem decimal_digits {digits : List Byte} (h : Digits digits) :
    ∀ c ∈ digits, isDigitIn 10 c = true ∧ c ≠ 120 ∧ c ≠ 88 := by
  have hplain : ∀ c, isdigit c = true → c ≠ 120 ∧ c ≠ 88 := byte_all _ (by decide +kernel)
  exact fun c hc => ⟨(isdigit_isDigitIn c).mp (h.2 c hc), hplain c (h.2 c hc)⟩

/-- What `strtol` makes of digits behind blanks and a sign. -/
theorem strtol_signed {blanks sign digits : List Byte} (path : List Byte) (hblanks : ∀ c ∈ blanks, isspace c = true)
    (hsign : sign = [] ∨ sign = [43] ∨ sign = [45]) (hdigits : Digits digits) :
    strtol 10 (blanks ++ (sign ++ digits) ++ SLASH :: path) =
      ⟨sign == [45], decimal digits, SLASH :: path⟩ := by
  have hbytes := decimal_digits hdigits
  have hread := strtoDigits_text 10 digits (SLASH :: path) (fun c hc => (hbytes c hc).1) hdigits.1
    (fun c hc => (hbytes c hc).2) (by intro c hc; obtain rfl := Option.some.inj hc; decide)
  obtain ⟨d, ds, rfl⟩ := List.exists_cons_of_ne_nil hdigits.1
  obtain ⟨hspace, hminus, hplus⟩ := digit_noSign 10 d (hbytes d List.mem_cons_self).1
  have hskip : (blanks ++ (sign ++ d :: ds) ++ SLASH :: path).dropWhile isspace =
      sign ++ (d :: ds ++ SLASH :: path) := by
    rw [List.append_assoc, List.dropWhile_append_of_pos hblanks, List.append_assoc]
    rcases hsign with rfl | rfl | rfl
    · exact List.dropWhile_cons_of_neg (by rw [hspace]; exact Bool.false_ne_true)
    · rfl
    · rfl
  rw [strtol, hskip]
  rcases hsign with rfl | rfl | rfl
  · have hbegin : deref (d :: ds ++ SLASH :: path) = d := rfl
    rw [List.nil_append, hbegin, if_neg (not_or.mpr ⟨hminus, hplus⟩), hread]
    simp only [beq_eq_false_iff_ne.mpr hminus]
    rfl
  · have hbegin : deref ([43] ++ (d :: ds ++ SLASH :: path)) = 43 := rfl
    have htail : ([43] ++ (d :: ds ++ SLASH :: path)).tail = d :: ds ++ SLASH :: path := rfl
    simp only [hbegin, or_true, if_true, htail, hread]
    rfl
  · have hbegin : deref ([45] ++ (d :: ds ++ SLASH :: path)) = 45 := rfl
    have htail : ([45] ++ (d :: ds ++ SLASH :: path)).tail = d :: ds ++ SLASH :: path := rfl
    simp only [hbegin, true_or, if_true, htail, hread]
    rfl

theorem strtoul_signed {blanks sign digits : List Byte} (path : List Byte)
    (hblanks : ∀ c ∈ blanks, isspace c = true) (hsign : sign = [] ∨ sign = [43] ∨ sign = [45])
    (hdigits : Digits digits) : strtoul 10 (blanks ++ (sign ++ digits) ++ SLASH :: path) =
      (if ULONG_MAX < decimal digits then ULONG_MAX
        else if sign = [45] then (2 ^ 64 - decimal digits) % 2 ^ 64 else decimal digits, SLASH :: path) := by
  rw [strtoul, strtol_signed path hblanks hsign hdigits]
  simp only [beq_iff_eq]

/-- What `strtol` reads up to a slash is digits behind blanks and a sign. -/
theorem strtol_slash {text path : List Byte} (hrest : (strtol 10 (text ++ SLASH :: path)).rest = SLASH :: path)
    (hpos : (strtol 10 (text ++ SLASH :: path)).magnitude ≠ 0) : ∃ blanks sign digits,
      text = blanks ++ (sign ++ digits) ∧ (∀ c ∈ blanks, isspace c = true) ∧
        (sign = [] ∨ sign = [43] ∨ sign = [45]) ∧ Digits digits := by
  have hslash : isspace SLASH = false := rfl
  obtain ⟨q, hq⟩ : ∃ q, q = text.dropWhile isspace := ⟨_, rfl⟩
  have htext : text = text.takeWhile isspace ++ q := by rw [hq, List.takeWhile_append_dropWhile]
  have hskip : (text ++ SLASH :: path).dropWhile isspace = q ++ SLASH :: path := by
    rw [hq, List.dropWhile_append]
    split_ifs with hempty
    · rw [List.isEmpty_iff] at hempty
      rw [hempty]
      exact List.dropWhile_cons_of_neg (by rw [hslash]; exact Bool.false_ne_true)
    · rfl
  obtain ⟨sign, digits, hsplit, hsign, hbehind⟩ : ∃ sign digits, q = sign ++ digits ∧
      (sign = [] ∨ sign = [43] ∨ sign = [45]) ∧
      (if deref (q ++ SLASH :: path) = 45 ∨ deref (q ++ SLASH :: path) = 43 then (q ++ SLASH :: path).tail
        else q ++ SLASH :: path) = digits ++ SLASH :: path := by
    cases q with
    | nil => exact ⟨[], [], rfl, .inl rfl, rfl⟩
    | cons c q =>
      rw [List.cons_append, deref_cons, List.tail_cons]
      split_ifs with hc
      · refine ⟨[c], q, rfl, ?_, rfl⟩
        rcases hc with rfl | rfl
        · exact .inr (.inr rfl)
        · exact .inr (.inl rfl)
      · exact ⟨[], c :: q, rfl, .inl rfl, rfl⟩
  refine ⟨_, sign, digits, hsplit ▸ htext, Scan.takeWhile_all isspace text, hsign, ?_⟩
  rw [strtol, hskip, hbehind] at hrest hpos
  simp only [strtoDigits, show ¬ (10 : Nat) = 16 by decide, false_and, if_false] at hrest hpos
  split_ifs at hrest hpos with hnone
  · exact absurd rfl hpos
  · dsimp only at hrest
    have hall := List.takeWhile_append_dropWhile (p := isDigitIn 10) (l := digits ++ SLASH :: path)
    rw [hrest, List.append_cancel_right_eq] at hall
    rw [hall] at hnone
    refine ⟨hnone, fun c hc => (isdigit_isDigitIn c).mpr ?_⟩
    rw [← hall] at hc
    exact Scan.takeWhile_all _ _ c hc

/-- `strtoul` reads a port from digits, and from digits behind blanks and a sign. -/
theorem strtoul_port {text path : List Byte} {n : Nat} (hpos : 0 < n) (hmax : n ≤ 65535) :
    strtoul 10 (text ++ SLASH :: path) = (n, SLASH :: path) ↔
      (Digits text ∧ decimal text = n) ∨ SignedPort text n := by
  have hulong : ULONG_MAX = 2 ^ 64 - 1 := rfl
  constructor
  · intro h
    have hmagnitude : (strtol 10 (text ++ SLASH :: path)).magnitude ≠ 0 := by
      intro hzero
      have hvalue := congrArg Prod.fst h
      rw [strtoul, hzero] at hvalue
      dsimp only at hvalue
      split_ifs at hvalue <;> omega
    obtain ⟨blanks, sign, digits, rfl, hblanks, hsign, hdigits⟩ := strtol_slash (congrArg Prod.snd h) hmagnitude
    rw [strtoul_signed path hblanks hsign hdigits, Prod.mk.injEq] at h
    have hsum : (sign = [] ∨ sign = [43]) ∧ decimal digits = n ∨ sign = [45] ∧ decimal digits + n = 2 ^ 64 := by
      have hvalue := h.1
      split_ifs at hvalue with hbig hminus
      · omega
      · exact .inr ⟨hminus, by omega⟩
      · rw [← or_assoc] at hsign
        exact .inl ⟨hsign.resolve_right hminus, hvalue⟩
    by_cases hplain : blanks ++ sign = []
    · obtain ⟨rfl, rfl⟩ := List.append_eq_nil_iff.mp hplain
      exact .inl ⟨hdigits, (hsum.resolve_right fun h => List.cons_ne_nil _ _ h.1.symm).2⟩
    · exact .inr ⟨blanks, sign, digits, rfl, hblanks, hplain, hdigits, hsum⟩
  · rintro (⟨hdigits, rfl⟩ | ⟨blanks, sign, digits, rfl, hblanks, -, hdigits, hsum⟩)
    · have hread := @strtoul_signed [] [] _ path (List.forall_mem_nil _) (.inl rfl) hdigits
      rw [List.nil_append, List.nil_append] at hread
      rw [hread, if_neg (by omega), if_neg (by decide)]
    · rcases hsum with ⟨hsign, rfl⟩ | ⟨rfl, hsum⟩
      · have hminus : sign ≠ [45] := by
          rcases hsign with rfl | rfl <;> decide
        rw [strtoul_signed path hblanks (or_assoc.mp (.inl hsign)) hdigits, if_neg (by omega), if_neg hminus]
      · have hmod : (2 ^ 64 - decimal digits) % 2 ^ 64 = n := by omega
        rw [strtoul_signed path hblanks (.inr (.inr rfl)) hdigits, if_neg (by omega), if_pos rfl, hmod]

theorem SignedPort.not_digits {text : List Byte} {n : Nat} (h : SignedPort text n) : ¬ Digits text := by
  obtain ⟨blanks, sign, digits, rfl, hblanks, hne, -, hsum⟩ := h
  rintro ⟨-, hall⟩
  have hspace : ∀ c, isdigit c = true → isspace c = false := byte_all _ (by decide +kernel)
  cases blanks with
  | cons c blanks =>
    have hc := hblanks c List.mem_cons_self
    rw [hspace c (hall c List.mem_cons_self)] at hc
    cases hc
  | nil =>
    have hsigns : sign = [43] ∨ sign = [45] := by
      rcases hsum with ⟨rfl | h, -⟩ | ⟨h, -⟩
      · exact absurd rfl hne
      · exact .inl h
      · exact .inr h
    rcases hsigns with rfl | rfl
    · exact absurd (hall 43 List.mem_cons_self) (by decide)
    · exact absurd (hall 45 List.mem_cons_self) (by decide)

/-! ### The host -/

/-- The table of protocols: no one begins like another. -/
theorem absUriProtocols_prefix : ∀ p ∈ absUriProtocols, ∀ q ∈ absUriProtocols,
    (p.proto <+: q.proto ∨ q.proto <+: p.proto) → p.proto = q.proto ∧ p.defaultPort = q.defaultPort := by
  decide

theorem uriProtocol_scheme {proto : AbsUriProtocol} {scheme : List Byte} (hknown : proto ∈ absUriProtocols)
    (hscheme : scheme.map tolower = proto.proto) (rest : List Byte) :
    uriProtocol (scheme ++ rest) = some (proto, rest) := by
  have hplain : ∀ p ∈ absUriProtocols, NUL ∉ p.proto ∧ p.proto.map tolower = p.proto := by decide
  have hmatch : ∀ p ∈ absUriProtocols, (mgStrncasecmp (scheme ++ rest) p.proto p.proto.length == 0) = true ↔
      p.proto <+: proto.proto ++ rest.map tolower := by
    intro p hp
    obtain ⟨hnul, hlower⟩ := hplain p hp
    rw [beq_iff_eq, mgStrncasecmp_comm, mgStrncasecmp_eq_zero _ _ hnul, hlower, List.map_append, hscheme]
  have hlen : scheme.length = proto.proto.length := by rw [← hscheme, List.length_map]
  rw [uriProtocol]
  cases hfind : absUriProtocols.find? (fun p => mgStrncasecmp (scheme ++ rest) p.proto p.proto.length == 0) with
  | none =>
    have hno := List.find?_eq_none.mp hfind proto hknown
    exact absurd ((hmatch proto hknown).mpr (List.prefix_append _ _)) hno
  | some p =>
    have hp := List.mem_of_find?_eq_some hfind
    have hfound := List.find?_some hfind
    have hprefix := (hmatch p hp).mp hfound
    obtain ⟨hproto, hport⟩ := absUriProtocols_prefix p hp proto hknown
      (List.prefix_or_prefix_of_prefix hprefix (List.prefix_append _ _))
    obtain ⟨text, port⟩ := p
    obtain ⟨text', port'⟩ := proto
    cases hproto
    cases hport
    rw [Option.map_some, ← hlen, List.drop_left]

theorem inServerDomain_iff {host serverDomain : List Byte} (tail : List Byte) (hdomain : serverDomain ≠ []) :
    inServerDomain (host ++ tail) host.length serverDomain = true ↔ OwnHost serverDomain host := by
  have hn : serverDomain.length ≠ 0 := fun h => hdomain (List.eq_nil_of_length_eq_zero h)
  have hbelow : ∀ sub, sub ≠ [] → host = sub ++ DOT :: serverDomain → serverDomain.length + 2 ≤ host.length := by
    rintro sub hsub rfl
    have hpos := List.length_pos_iff.mpr hsub
    rw [List.length_append, List.length_cons]
    omega
  rw [inServerDomain, if_neg hn]
  by_cases hsame : host.length = serverDomain.length ∧ (host ++ tail).take serverDomain.length = serverDomain
  · rw [if_pos hsame]
    have htake := hsame.2
    rw [← hsame.1, List.take_left] at htake
    exact iff_of_true rfl (.inl htake)
  · rw [if_neg hsame]
    have hne : host ≠ serverDomain := by
      rintro rfl
      exact hsame ⟨rfl, List.take_left⟩
    by_cases hshort : host.length < serverDomain.length + 2
    · rw [if_pos hshort]
      refine iff_of_false Bool.false_ne_true ?_
      rintro (heq | ⟨sub, hsub, heq⟩)
      · exact hne heq
      · have hlen := hbelow sub hsub heq
        omega
    · rw [if_neg hshort]
      -- the host, cut in front of the character that has to be a dot
      obtain ⟨sub, c, suffix, rfl, hsuffix⟩ : ∃ sub c suffix, host = sub ++ c :: suffix ∧
          suffix.length = serverDomain.length := by
        have hcut := List.take_append_drop (host.length - serverDomain.length - 1) host
        cases hdrop : host.drop (host.length - serverDomain.length - 1) with
        | nil =>
          rw [List.drop_eq_nil_iff] at hdrop
          omega
        | cons c suffix =>
          refine ⟨_, c, suffix, (hdrop ▸ hcut).symm, ?_⟩
          have hlen := congrArg List.length hdrop
          rw [List.length_drop, List.length_cons] at hlen
          omega
      have hdot : (sub ++ c :: suffix).length - serverDomain.length - 1 = sub.length := by
        rw [List.length_append, List.length_cons]
        omega
      have hbehind : (sub ++ c :: suffix).length - serverDomain.length = (sub ++ [c]).length := by
        rw [List.length_append, List.length_cons, List.length_append, List.length_singleton]
        omega
      have hsub : sub ≠ [] := by
        rintro rfl
        rw [List.nil_append, List.length_cons] at hshort
        omega
      have hfirst : deref ((sub ++ c :: suffix ++ tail).drop sub.length) = c := by
        rw [List.append_assoc, List.drop_left]
        rfl
      have hrest : ((sub ++ c :: suffix ++ tail).drop (sub ++ [c]).length).take serverDomain.length = suffix := by
        have hshape : sub ++ c :: suffix ++ tail = (sub ++ [c]) ++ (suffix ++ tail) := by simp
        rw [hshape, List.drop_left, ← hsuffix, List.take_left]
      rw [hdot, hbehind, hfirst, hrest]
      by_cases hc : c = DOT
      · rw [if_neg (not_not.mpr hc), beq_iff_eq, hc]
        constructor
        · rintro rfl
          exact .inr ⟨sub, hsub, rfl⟩
        · rintro (heq | ⟨sub', -, heq⟩)
          · exact absurd (hc ▸ heq) hne
          · have hlen := congrArg List.length heq
            rw [List.length_append, List.length_append, List.length_cons, List.length_cons, hsuffix] at hlen
            exact (List.cons.inj (List.append_inj_right heq (by omega))).2
      · rw [if_pos hc]
        refine iff_of_false Bool.false_ne_true ?_
        rintro (heq | ⟨sub', -, heq⟩)
        · exact hne heq
        · have hlen := congrArg List.length heq
          rw [List.length_append, List.length_append, List.length_cons, List.length_cons, hsuffix] at hlen
          exact hc (List.cons.inj (List.append_inj_right heq (by omega))).1

/-! ### The URI as a whole -/

section
variable {uri host path : List Byte} {proto : AbsUriProtocol}

theorem AbsoluteUri.portless (h : AbsoluteUri uri proto host none path) : Portless uri proto host path where
  protocol := by
    obtain ⟨scheme, hscheme, rfl⟩ := h.text
    exact uriProtocol_scheme h.known hscheme _
  host_end := h.host_slash
  no_port := h.host_colon

theorem AbsoluteUri.ported {port : List Byte} (h : AbsoluteUri uri proto host (some port) path) :
    Ported uri proto host port path where
  protocol := by
    obtain ⟨scheme, hscheme, rfl⟩ := h.text
    exact uriProtocol_scheme h.known hscheme _
  host_end := h.host_slash
  host_colon := h.host_colon
  port_end := h.port_slash port rfl

theorem getRelUrl_port {port : List Byte} (h : Ported uri proto host port path) (lsaPort : Nat)
    (serverDomain : Option (List Byte)) :
    getRelUrlAtCurrentServer uri lsaPort serverDomain =
      if uriPort (COLON :: (port ++ SLASH :: path)) (SLASH :: path) = some lsaPort ∧
          serverDomain.all (inServerDomain (host ++ COLON :: (port ++ SLASH :: path)) host.length) = true
      then some (SLASH :: path) else none := by
  obtain ⟨hslash, hcolon⟩ := strchr_ported h
  have hlen : ¬ (COLON :: (port ++ SLASH :: path)).length < (SLASH :: path).length := by
    simp only [List.length_cons, List.length_append]
    omega
  have hhost : (host ++ COLON :: (port ++ SLASH :: path)).length - (COLON :: (port ++ SLASH :: path)).length =
      host.length := by rw [List.length_append, Nat.add_sub_cancel]
  simp only [getRelUrlAtCurrentServer, h.protocol, hslash, hcolon, if_neg hlen, hhost, Option.bind_eq_bind,
    Option.bind_some]
  cases uriPort (COLON :: (port ++ SLASH :: path)) (SLASH :: path) with
  | none => rfl
  | some n =>
    rw [Option.map_some, Option.bind_some, ite_not, ite_and]
    by_cases hport : lsaPort = n
    · rw [if_pos hport, if_pos (congrArg some hport.symm)]
    · rw [if_neg hport, if_neg fun h => hport (Option.some.inj h).symm]

/-- What `get_rel_url_at_current_server` takes for the port: what is given, and what is given behind blanks or a
sign. -/
def ReadPort (proto : AbsUriProtocol) (port : Option (List Byte)) (n : Nat) : Prop :=
  1 ≤ n ∧ n ≤ 65535 ∧ (givenPort proto port = some n ∨ ∃ text ∈ port, SignedPort text n)

/-- A URI is attributed to this server exactly where its port is read as the server's and its host is of the server's
domain. -/
theorem getRelUrl_read {port : Option (List Byte)} (h : AbsoluteUri uri proto host port path) (lsaPort : Nat)
    {serverDomain : List Byte} (hdomain : serverDomain ≠ []) :
    getRelUrlAtCurrentServer uri lsaPort (some serverDomain) = some (SLASH :: path) ∧
        ReadPort proto port lsaPort ∧ OwnHost serverDomain host ∨
      getRelUrlAtCurrentServer uri lsaPort (some serverDomain) = none ∧
        ¬ (ReadPort proto port lsaPort ∧ OwnHost serverDomain host) := by
  have hall : ∀ tail, (some serverDomain).all (inServerDomain (host ++ tail) host.length) = true ↔
      OwnHost serverDomain host := fun tail => inServerDomain_iff tail hdomain
  cases port with
  | none =>
    have hdefault : ∀ p ∈ absUriProtocols, 1 ≤ p.defaultPort ∧ p.defaultPort ≤ 65535 := by decide
    obtain ⟨hpos, hmax⟩ := hdefault proto h.known
    have hport : lsaPort = proto.defaultPort ↔ ReadPort proto none lsaPort := by
      simp only [ReadPort, givenPort, Option.some.injEq, Option.mem_def, reduceCtorEq, false_and, exists_false,
        or_false]
      omega
    rw [getRelUrl_portless h.portless]
    by_cases hown : ReadPort proto none lsaPort ∧ OwnHost serverDomain host
    · rw [if_pos ⟨hport.mpr hown.1, (hall _).mpr hown.2⟩]
      exact .inl ⟨rfl, hown⟩
    · rw [if_neg fun h => hown ⟨hport.mp h.1, (hall _).mp h.2⟩]
      exact .inr ⟨rfl, hown⟩
  | some text =>
    have hport : uriPort (COLON :: (text ++ SLASH :: path)) (SLASH :: path) = some lsaPort ↔
        ReadPort proto (some text) lsaPort := by
      have hgiven : givenPort proto (some text) = some lsaPort ↔ Digits text ∧ decimal text = lsaPort := by
        rw [givenPort]
        split_ifs with hdigits
        · rw [Option.some.injEq, and_iff_right hdigits]
        · exact iff_of_false not_false fun h => hdigits h.1
      rw [uriPort_eq_some, ReadPort, hgiven]
      simp only [Option.mem_some_iff, exists_eq_left']
      constructor
      · rintro ⟨hread, hpos, hmax⟩
        exact ⟨hpos, hmax, (strtoul_port hpos hmax).mp hread⟩
      · rintro ⟨hpos, hmax, hread⟩
        exact ⟨(strtoul_port hpos hmax).mpr hread, hpos, hmax⟩
    rw [getRelUrl_port h.ported]
    by_cases hown : ReadPort proto (some text) lsaPort ∧ OwnHost serverDomain host
    · rw [if_pos ⟨hport.mpr hown.1, (hall _).mpr hown.2⟩]
      exact .inl ⟨rfl, hown⟩
    · rw [if_neg fun h => hown ⟨hport.mp h.1, (hall _).mp h.2⟩]
      exact .inr ⟨rfl, hown⟩

end

/-- A URI is attributed to the server exactly if it gives its port and its host, and the host is never read in front
of its begin. -/
structure OwnUri (conn : Conn) (uri : List Byte) (proto : AbsUriProtocol) (host : List Byte)
    (port : Option (List Byte)) (path : List Byte) : Prop where
  attributed : getRelUrlAtCurrentServer uri conn.lsaPort (checkedDomain conn) = some (SLASH :: path) ↔
    (∃ n, givenPort proto port = some n ∧ 1 ≤ n ∧ n ≤ 65535 ∧ n = conn.lsaPort) ∧
      OwnHost conn.domain.authenticationDomain host
  refused : getRelUrlAtCurrentServer uri conn.lsaPort (checkedDomain conn) ≠ some (SLASH :: path) →
    getRelUrlAtCurrentServer uri conn.lsaPort (checkedDomain conn) = none
  reads : HostReads (host ++ (portText port ++ SLASH :: path)) host.length conn.domain.authenticationDomain

/-- Where the domain is checked, an absolute URI is attributed to this server exactly if it gives its port and its
host, unless its port is the server's behind blanks or a sign. -/
theorem ownUri_iff {uri host path : List Byte} {proto : AbsUriProtocol} {port : Option (List Byte)} (conn : Conn)
    (h : AbsoluteUri uri proto host port path)
    (hcheck : mgStrcasecmp conn.domain.enableAuthDomainCheck (ascii "yes") = 0)
    (hdomain : conn.domain.authenticationDomain ≠ []) :
    OwnUri conn uri proto host port path ↔ ¬ ∃ text ∈ port, SignedPort text conn.lsaPort ∧
      1 ≤ conn.lsaPort ∧ conn.lsaPort ≤ 65535 ∧ OwnHost conn.domain.authenticationDomain host := by
  have hchecked : checkedDomain conn = some conn.domain.authenticationDomain := by
    rw [checkedDomain, hcheck]
    rfl
  have hgiven : (∃ n, givenPort proto port = some n ∧ 1 ≤ n ∧ n ≤ 65535 ∧ n = conn.lsaPort) ↔
      givenPort proto port = some conn.lsaPort ∧ 1 ≤ conn.lsaPort ∧ conn.lsaPort ≤ 65535 := by
    constructor
    · rintro ⟨n, hn, hpos, hmax, rfl⟩
      exact ⟨hn, hpos, hmax⟩
    · rintro ⟨hn, hpos, hmax⟩
      exact ⟨_, hn, hpos, hmax, rfl⟩
  have hread := getRelUrl_read h conn.lsaPort hdomain
  constructor
  · rintro ⟨hattributed, -, -⟩ ⟨text, rfl, hsigned, hpos, hmax, hown⟩
    rw [hchecked, hgiven] at hattributed
    rcases hread with ⟨hsome, -, -⟩ | ⟨-, hforeign⟩
    · have hport := (hattributed.mp hsome).1.1
      rw [givenPort, if_neg hsigned.not_digits] at hport
      cases hport
    · exact hforeign ⟨⟨hpos, hmax, .inr ⟨text, rfl, hsigned⟩⟩, hown⟩
  · intro hplain
    refine ⟨?_, ?_, hostReads_begin _ _ _⟩
    · rw [hchecked, hgiven]
      rcases hread with ⟨hsome, ⟨hpos, hmax, hport⟩, hown⟩ | ⟨hnone, hforeign⟩
      · refine iff_of_true hsome ⟨⟨hport.resolve_right ?_, hpos, hmax⟩, hown⟩
        rintro ⟨text, htext, hsigned⟩
        exact hplain ⟨text, htext, hsigned, hpos, hmax, hown⟩
      · rw [hnone]
        refine iff_of_false (Option.some_ne_none _).symm ?_
        rintro ⟨⟨hport, hpos, hmax⟩, hown⟩
        exact hforeign ⟨⟨hpos, hmax, .inl hport⟩, hown⟩
    · rw [hchecked]
      intro hne
      rcases hread with ⟨hsome, -⟩ | ⟨hnone, -⟩
      · exact absurd hsome hne
      · exact hnone

/-- A host below the server's domain, with the server's port. -/
def ownUriRequest : Conn :=
  { freshConn 64 [] with domains := [⟨ascii "my.org", [], ascii "yes"⟩], lsaPort := 8080 }

theorem ownUri_iff_below :
    getRelUrlAtCurrentServer (ascii "HTTP://www.my.org:8080/x") 8080 (some (ascii "my.org")) = some (ascii "/x") := by
  have habs : AbsoluteUri (ascii "HTTP://www.my.org:8080/x") ⟨ascii "http://", 80⟩ (ascii "www.my.org")
      (some (ascii "8080")) (ascii "x") :=
    ⟨List.mem_cons_self, ⟨ascii "HTTP://", by decide, by decide⟩, by decide, by decide, by decide⟩
  have hplain : ¬ ∃ text ∈ some (ascii "8080"), SignedPort text ownUriRequest.lsaPort ∧ 1 ≤ ownUriRequest.lsaPort ∧
      ownUriRequest.lsaPort ≤ 65535 ∧ OwnHost ownUriRequest.domain.authenticationDomain (ascii "www.my.org") := by
    rintro ⟨text, htext, hsigned, -⟩
    obtain rfl := Option.some.inj htext
    exact hsigned.not_digits (by decide)
  exact ((ownUri_iff ownUriRequest habs (by decide) (by decide)).mpr hplain).attributed.mpr
    ⟨⟨8080, by decide, by decide, by decide, rfl⟩, .inr ⟨ascii "www", by decide, by decide⟩⟩

/-- A port below zero, which is the server's modulo 2^64. -/
theorem ownUri_iff_minus :
    getRelUrlAtCurrentServer (ascii "http://my.org:-18446744073709543536/x") 8080 (some (ascii "my.org")) =
        some (ascii "/x") ∧
      ¬ OwnUri ownUriRequest (ascii "http://my.org:-18446744073709543536/x") ⟨ascii "http://", 80⟩ (ascii "my.org")
        (some (ascii "-18446744073709543536")) (ascii "x") := by
  have hread : getRelUrlAtCurrentServer (ascii "http://my.org:-18446744073709543536/x") 8080
      (some (ascii "my.org")) = some (ascii "/x") := by decide
  refine ⟨hread, fun h => ?_⟩
  obtain ⟨⟨n, hport, -⟩, -⟩ := h.attributed.mp hread
  have hnone : givenPort ⟨ascii "http://", 80⟩ (some (ascii "-18446744073709543536")) = none := by decide
  rw [hnone] at hport
  cases hport

end CivetWeb
