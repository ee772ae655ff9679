import CivetWeb.Auth.CheckAuthorization
import CivetWeb.Conn.Process

namespace CivetWeb

/-! ### What is read of a host and a port -/

theorem strchr_append {s : List Byte} {c : Byte} (hs : c ∉ s) (t : List Byte) :
    strchr (s ++ c :: t) c = some (c :: t) := by
  have hdrop : (s ++ c :: t).dropWhile (· != c) = c :: t :=
    Scan.dropWhile_stop _ s c t (fun a ha => bne_iff_ne.mpr fun h => hs (h ▸ ha)) (by simp)
  rw [strchr, hdrop]
  exact if_neg (List.cons_ne_nil c t)

theorem strchr_none {s : List Byte} {c : Byte} (hs : c ∉ s) : strchr s c = none := by
  have hdrop : s.dropWhile (· != c) = [] :=
    List.dropWhile_eq_nil_iff.mpr fun a ha => bne_iff_ne.mpr fun h => hs (h ▸ ha)
  rw [strchr, hdrop]
  exact if_pos rfl

theorem strtoDigits_suffix (base : Nat) (p : List Byte) (n : Nat) (rest : List Byte)
    (h : strtoDigits base p = some (n, rest)) : rest <:+ p := by
  simp only [strtoDigits] at h
  split_ifs at h with hhex hnil hnil
  · cases h
    exact (List.dropWhile_suffix _).trans ((List.tail_suffix _).trans (List.tail_suffix _))
  · cases h
    exact List.dropWhile_suffix _

/-- A number ends within the text it is read from. -/
theorem strtoul_suffix (base : Nat) (s : List Byte) : (strtoul base s).2 <:+ s := by
  show (strtol base s).rest <:+ s
  rw [strtol]
  have hskip := List.dropWhile_suffix isspace (l := s)
  obtain ⟨p, hp⟩ : ∃ p, p = s.dropWhile isspace := ⟨_, rfl⟩
  rw [← hp] at hskip ⊢
  have hsign : (if deref p = 45 ∨ deref p = 43 then p.tail else p) <:+ p := by
    split_ifs
    · exact List.tail_suffix p
    · exact List.suffix_rfl
  cases hread : strtoDigits base (if deref p = 45 ∨ deref p = 43 then p.tail else p) with
  | none => exact List.suffix_rfl
  | some r => exact (strtoDigits_suffix base _ _ _ hread).trans (hsign.trans hskip)

/-- A port is read where the number behind the colon takes all of the text up to the slash. -/
theorem uriPort_eq_some (port path : List Byte) (n : Nat) :
    uriPort (COLON :: (port ++ SLASH :: path)) (SLASH :: path) = some n ↔
      strtoul 10 (port ++ SLASH :: path) = (n, SLASH :: path) ∧ 0 < n ∧ n ≤ 65535 := by
  obtain ⟨⟨m, portend⟩, hm⟩ : ∃ r, strtoul 10 (port ++ SLASH :: path) = r := ⟨_, rfl⟩
  have hsuffix := strtoul_suffix 10 (port ++ SLASH :: path)
  rw [hm] at hsuffix
  have hend : portend.length = (SLASH :: path).length ↔ portend = SLASH :: path :=
    ⟨fun h => List.IsSuffix.eq_of_length
      (List.suffix_of_suffix_length_le hsuffix (List.suffix_append _ _) h.le) h, congrArg _⟩
  simp only [uriPort, List.tail_cons, hm, isValidPort, Prod.mk.injEq, ne_eq, hend]
  constructor
  · intro h
    split_ifs at h with hbad
    cases h
    simp only [not_or, not_not, Bool.not_eq_true', decide_eq_false_iff_not] at hbad
    exact ⟨⟨rfl, hbad.1⟩, by omega, hbad.2.2⟩
  · rintro ⟨⟨rfl, rfl⟩, hpos, hmax⟩
    rw [if_neg]
    simp only [not_true_eq_false, false_or, Bool.not_eq_true', decide_eq_false_iff_not, not_or, not_not]
    exact ⟨by omega, hmax⟩

theorem uriPort_behind {portbegin hostend : List Byte} (h : portbegin.tail.length < hostend.length) :
    uriPort portbegin hostend = none := by
  have hend := (strtoul_suffix 10 portbegin.tail).length_le
  exact if_pos (.inl (hend.trans_lt h).ne)

/-! ### The two parsers -/

/-- An absolute URI that writes no port. -/
structure Portless (uri : List Byte) (proto : AbsUriProtocol) (host path : List Byte) : Prop where
  protocol : uriProtocol uri = some (proto, host ++ SLASH :: path)
  host_end : SLASH ∉ host
  no_port : COLON ∉ host

/-- An absolute URI with something behind a colon in front of the path. -/
structure Ported (uri : List Byte) (proto : AbsUriProtocol) (host port path : List Byte) : Prop where
  protocol : uriProtocol uri = some (proto, host ++ COLON :: (port ++ SLASH :: path))
  host_end : SLASH ∉ host
  host_colon : COLON ∉ host
  port_end : SLASH ∉ port

theorem uriProtocol_first {uri : List Byte} {r : AbsUriProtocol × List Byte} (h : uriProtocol uri = some r) :
    uri ≠ [42] ∧ deref uri ≠ SLASH := by
  obtain ⟨proto, hfind, -⟩ := Option.map_eq_some_iff.mp h
  have hmem := List.mem_of_find?_eq_some hfind
  have heq := List.find?_some hfind
  simp only [beq_iff_eq] at heq
  have hfirst : tolower (deref uri) = tolower (deref proto.proto) := by
    obtain ⟨c, t, hc⟩ : ∃ c t, proto.proto = c :: t := by
      have hall : ∀ p ∈ absUriProtocols, p.proto ≠ [] := by decide
      exact List.exists_cons_of_ne_nil (hall proto hmem)
    rw [hc, List.length_cons] at heq
    rw [hc, deref_cons]
    by_contra hne
    simp only [mgStrncasecmp, deref_cons, tolower_toNat_inj, hne, ne_eq, not_false_eq_true, if_true] at heq
  have hletter : ∀ p ∈ absUriProtocols, tolower (deref p.proto) ≠ tolower 42 ∧
      tolower (deref p.proto) ≠ tolower SLASH := by decide
  obtain ⟨hstar, hslash⟩ := hletter proto hmem
  rw [← hfirst] at hstar hslash
  exact ⟨fun h => hstar (by rw [h, deref_cons]), fun h => hslash (by rw [h])⟩

/-- What is absolute is without a path, or with a port or without one. -/
theorem uriProtocol_cases {uri hostbegin : List Byte} {proto : AbsUriProtocol}
    (h : uriProtocol uri = some (proto, hostbegin)) :
    strchr hostbegin SLASH = none ∨ (∃ host path, Portless uri proto host path) ∨
      ∃ host port path, Ported uri proto host port path := by
  by_cases hslash : SLASH ∈ hostbegin
  swap
  · exact .inl (strchr_none hslash)
  obtain ⟨host, path, rfl, hend⟩ := List.eq_append_cons_of_mem hslash
  by_cases hcolon : COLON ∈ host
  swap
  · exact .inr (.inl ⟨host, path, h, hend, hcolon⟩)
  obtain ⟨host, port, rfl, hfirst⟩ := List.eq_append_cons_of_mem hcolon
  simp only [List.mem_append, List.mem_cons, not_or] at hend
  rw [List.append_assoc, List.cons_append] at h
  exact .inr (.inr ⟨host, port, path, h, hend.1, hfirst, hend.2.2⟩)

section
variable {uri host path : List Byte} {proto : AbsUriProtocol}

/-- The first colon of a URI without a port is in its path. -/
theorem strchr_portless (h : Portless uri proto host path) :
    (COLON ∉ path ∧ strchr (host ++ SLASH :: path) COLON = none) ∨
      COLON ∈ path ∧ ∃ portbegin, strchr (host ++ SLASH :: path) COLON = some portbegin ∧
        portbegin.length < (SLASH :: path).length := by
  by_cases hcolon : COLON ∈ path
  · obtain ⟨a, b, rfl, ha⟩ := List.eq_append_cons_of_mem hcolon
    have hin : COLON ∉ host ++ SLASH :: a := by
      simp only [List.mem_append, List.mem_cons, not_or]
      exact ⟨h.no_port, by decide, ha⟩
    have hcut := strchr_append hin b
    rw [List.append_assoc, List.cons_append] at hcut
    refine .inr ⟨hcolon, _, hcut, ?_⟩
    simp only [List.length_cons, List.length_append]
    omega
  · refine .inl ⟨hcolon, strchr_none ?_⟩
    simp only [List.mem_append, List.mem_cons, not_or]
    exact ⟨h.no_port, by decide, hcolon⟩

theorem getUriType_portless (h : Portless uri proto host path) (hvalid : validUriChars uri = true) :
    getUriType uri = if COLON ∈ path then 0 else 3 := by
  obtain ⟨hstar, hrel⟩ := uriProtocol_first h.protocol
  have hslash := strchr_append h.host_end path
  rw [getUriType, if_neg hstar, hvalid, if_neg (by decide), if_neg hrel]
  simp only [h.protocol, hslash]
  rcases strchr_portless h with ⟨hcolon, hcut⟩ | ⟨hcolon, portbegin, hcut, hlen⟩
  · simp only [hcut, if_neg hcolon]
  · have hnone : uriPort portbegin (SLASH :: path) = none := uriPort_behind (by rw [List.length_tail]; omega)
    simp only [hcut, hnone, if_pos hcolon, Option.isSome_none, Bool.false_eq_true, if_false]

theorem getRelUrl_portless (h : Portless uri proto host path) (lsaPort : Nat)
    (serverDomain : Option (List Byte)) :
    getRelUrlAtCurrentServer uri lsaPort serverDomain =
      if lsaPort = proto.defaultPort ∧
          serverDomain.all (inServerDomain (host ++ SLASH :: path) host.length) = true
      then some (SLASH :: path) else none := by
  have hslash := strchr_append h.host_end path
  have hlen : (host ++ SLASH :: path).length - (SLASH :: path).length = host.length := by
    rw [List.length_append, Nat.add_sub_cancel]
  rw [ite_and]
  rcases strchr_portless h with ⟨-, hcut⟩ | ⟨-, portbegin, hcut, hbehind⟩
  · simp only [getRelUrlAtCurrentServer, h.protocol, hslash, hcut, hlen, Option.bind_eq_bind,
      Option.bind_some, ite_not]
  · simp only [getRelUrlAtCurrentServer, h.protocol, hslash, hcut, hlen, if_pos hbehind, Option.bind_eq_bind,
      Option.bind_some, ite_not]

variable {port : List Byte}

theorem strchr_ported (h : Ported uri proto host port path) :
    strchr (host ++ COLON :: (port ++ SLASH :: path)) SLASH = some (SLASH :: path) ∧
      strchr (host ++ COLON :: (port ++ SLASH :: path)) COLON = some (COLON :: (port ++ SLASH :: path)) := by
  have hin : SLASH ∉ host ++ COLON :: port := by
    simp only [List.mem_append, List.mem_cons, not_or]
    exact ⟨h.host_end, by decide, h.port_end⟩
  have hslash := strchr_append hin path
  rw [List.append_assoc, List.cons_append] at hslash
  exact ⟨hslash, strchr_append h.host_colon _⟩

theorem getUriType_ported (h : Ported uri proto host port path) (hvalid : validUriChars uri = true) :
    getUriType uri = if (uriPort (COLON :: (port ++ SLASH :: path)) (SLASH :: path)).isSome then 4 else 0 := by
  obtain ⟨hstar, hrel⟩ := uriProtocol_first h.protocol
  obtain ⟨hslash, hcolon⟩ := strchr_ported h
  rw [getUriType, if_neg hstar, hvalid, if_neg (by decide), if_neg hrel]
  simp only [h.protocol, hslash, hcolon]

theorem getRelUrl_ported (h : Ported uri proto host port path) (lsaPort : Nat)
    (serverDomain : Option (List Byte)) {own : List Byte}
    (hown : getRelUrlAtCurrentServer uri lsaPort serverDomain = some own) :
    (uriPort (COLON :: (port ++ SLASH :: path)) (SLASH :: path)).isSome = true := by
  obtain ⟨hslash, hcolon⟩ := strchr_ported h
  have hlen : ¬ (COLON :: (port ++ SLASH :: path)).length < (SLASH :: path).length := by
    simp only [List.length_cons, List.length_append]
    omega
  simp only [getRelUrlAtCurrentServer, h.protocol, hslash, hcolon, if_neg hlen, Option.bind_eq_bind,
    Option.bind_some] at hown
  cases hport : uriPort (COLON :: (port ++ SLASH :: path)) (SLASH :: path) with
  | none =>
    rw [hport] at hown
    cases hown
  | some n => rfl

end

/-! ### Agreement for a connection -/

/-- The domain that a host is checked against. -/
def checkedDomain (conn : Conn) : Option (List Byte) :=
  if mgStrcasecmp conn.domain.enableAuthDomainCheck (ascii "yes") == 0 then some conn.domain.authenticationDomain
  else none

/-- The path of a request URI that addresses this server. -/
def ownPath (conn : Conn) : Option (List Byte) :=
  getRelUrlAtCurrentServer conn.requestInfo.requestUri conn.lsaPort (checkedDomain conn)

/-- A URI that addresses this server is served, and type 4 is for one with a port in front of its path. -/
structure UriParsersAgree (conn : Conn) : Prop where
  served : ∀ path, ownPath conn = some path →
    (getUriType conn.requestInfo.requestUri = 3 ∨ getUriType conn.requestInfo.requestUri = 4) ∧
      localUriOf conn = some (some path)
  port : getUriType conn.requestInfo.requestUri = 4 → ∃ proto host port path n,
    Ported conn.requestInfo.requestUri proto host port path ∧
      strtoul 10 (port ++ SLASH :: path) = (n, SLASH :: path) ∧ 0 < n ∧ n ≤ 65535

theorem localUriOf_own (conn : Conn)
    (h : getUriType conn.requestInfo.requestUri = 3 ∨ getUriType conn.requestInfo.requestUri = 4) :
    localUriOf conn = some (ownPath conn) := by
  rcases h with h | h <;> simp only [localUriOf, h, ownPath, checkedDomain]

theorem getUriType_four {uri : List Byte} (h : getUriType uri = 4) (hvalid : validUriChars uri = true) :
    ∃ proto host port path n, Ported uri proto host port path ∧
      strtoul 10 (port ++ SLASH :: path) = (n, SLASH :: path) ∧ 0 < n ∧ n ≤ 65535 := by
  cases hproto : uriProtocol uri with
  | none =>
    rw [getUriType, hvalid, hproto] at h
    split_ifs at h
    all_goals omega
  | some r =>
    obtain ⟨proto, hostbegin⟩ := r
    obtain ⟨hstar, hrel⟩ := uriProtocol_first hproto
    rcases uriProtocol_cases hproto with hnone | ⟨host, path, hless⟩ | ⟨host, port, path, hported⟩
    · rw [getUriType, if_neg hstar, hvalid, if_neg (by decide), if_neg hrel] at h
      simp only [hproto, hnone] at h
      omega
    · rw [getUriType_portless hless hvalid] at h
      split_ifs at h
      all_goals omega
    · rw [getUriType_ported hported hvalid] at h
      split_ifs at h with hport
      obtain ⟨n, hn⟩ := Option.isSome_iff_exists.mp hport
      exact ⟨proto, host, port, path, n, hported, (uriPort_eq_some port path n).mp hn⟩

/-- The parsers agree on a URI unless it names the server by the default port of its protocol, without a
port of its own, and has a colon in its path. -/
theorem uriParsersAgree_iff (conn : Conn) (hvalid : validUriChars conn.requestInfo.requestUri = true) :
    UriParsersAgree conn ↔ ∀ proto host path, Portless conn.requestInfo.requestUri proto host path →
      conn.lsaPort = proto.defaultPort →
      (checkedDomain conn).all (inServerDomain (host ++ SLASH :: path) host.length) = true →
      COLON ∉ path := by
  constructor
  · intro hagree proto host path hless hport hdomain hcolon
    have hown : ownPath conn = some (SLASH :: path) := by
      rw [ownPath, getRelUrl_portless hless, if_pos ⟨hport, hdomain⟩]
    have htype := (hagree.served _ hown).1
    rw [getUriType_portless hless hvalid, if_pos hcolon] at htype
    omega
  · intro hno
    refine ⟨fun own hown => ?_, fun h => getUriType_four h hvalid⟩
    have htype : getUriType conn.requestInfo.requestUri = 3 ∨ getUriType conn.requestInfo.requestUri = 4 := by
      cases hproto : uriProtocol conn.requestInfo.requestUri with
      | none =>
        simp only [ownPath, getRelUrlAtCurrentServer, hproto] at hown
        cases hown
      | some r =>
        obtain ⟨proto, hostbegin⟩ := r
        rcases uriProtocol_cases hproto with hnone | ⟨host, path, hless⟩ | ⟨host, port, path, hported⟩
        · simp only [ownPath, getRelUrlAtCurrentServer, hproto, hnone, Option.bind_eq_bind, Option.bind_some,
            Option.bind_none] at hown
          cases hown
        · rw [ownPath, getRelUrl_portless hless] at hown
          split_ifs at hown with hserver
          left
          rw [getUriType_portless hless hvalid, if_neg (hno proto host path hless hserver.1 hserver.2)]
        · right
          rw [getUriType_ported hported hvalid, if_pos (getRelUrl_ported hported _ _ hown)]
    exact ⟨htype, by rw [localUriOf_own conn htype, hown]⟩

def absoluteRequest : Conn :=
  { plainRequest with requestInfo := ⟨ascii "GET", ascii "http://a.b/x", ascii "1.1", []⟩ }

theorem uriParsersAgree_iff_absolute : UriParsersAgree absoluteRequest := by
  refine (uriParsersAgree_iff absoluteRequest (by decide)).mpr fun proto host path hless _ _ hcolon => ?_
  have hproto : uriProtocol (ascii "http://a.b/x") = some (⟨ascii "http://", 80⟩, ascii "a.b/x") := rfl
  have hbegin : ascii "a.b/x" = host ++ SLASH :: path :=
    congrArg Prod.snd (Option.some.inj (hproto.symm.trans hless.protocol))
  have hin : COLON ∈ ascii "a.b/x" := by
    rw [hbegin]
    exact List.mem_append_right _ (List.mem_cons_of_mem _ hcolon)
  exact absurd hin (by decide)

def colonRequest : Conn :=
  { plainRequest with requestInfo := ⟨ascii "GET", ascii "http://a.b/x:y", ascii "1.1", []⟩ }

/-- A colon in the path is taken for one in front of a port. -/
theorem uriParsersAgree_colon :
    validUriChars colonRequest.requestInfo.requestUri = true ∧ ownPath colonRequest = some (ascii "/x:y") ∧
      getUriType colonRequest.requestInfo.requestUri = 0 ∧
      localUriOf colonRequest = none ∧ ¬ UriParsersAgree colonRequest := by
  have hown : ownPath colonRequest = some (ascii "/x:y") := by decide
  have htype : getUriType colonRequest.requestInfo.requestUri = 0 := by decide
  refine ⟨by decide, hown, htype, by decide, fun h => ?_⟩
  have := (h.served _ hown).1
  omega

end CivetWeb
