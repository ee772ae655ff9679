import CivetWeb.Acl.LastMatch
import CivetWeb.Ports.PortShape

namespace CivetWeb

/-! ### The entries of the list -/

theorem portEntries_eq (list : List Byte) : portEntries list =
    match nextOption list with
    | none => []
    | some (ptr, len, rest) => (ptr, len) :: portEntries rest := by
  rw [portEntries]
  split
  · rename_i hnone
    rw [hnone]
  · rename_i hsome
    rw [hsome]

/-- An entry and what is left of the list behind it. -/
structure EntrySplit (list ptr rest : List Byte) (len : Nat) : Prop where
  ptr_eq : ptr = list.dropWhile isblank
  len_eq : len = ((ptr.takeWhile (· != COMMA)).rdropWhile isblank).length
  rest_eq : rest = (ptr.dropWhile (· != COMMA)).tail

/-- The first entry, if it is not empty, and the others. -/
theorem portEntries_step (list : List Byte) (hne : list ≠ []) :
    ∃ ptr rest len, EntrySplit list ptr rest len ∧
      portEntries list = (if len = 0 then [] else [(ptr, len)]) ++ portEntries rest := by
  refine ⟨_, _, _, ⟨rfl, rfl, rfl⟩, ?_⟩
  rw [portEntries_eq, nextOption, dif_neg hne]
  dsimp only
  split_ifs with hlen
  · rw [List.nil_append, portEntries_eq]
  · rfl

theorem EntrySplit.rest_lt {list ptr rest : List Byte} {len : Nat} (h : EntrySplit list ptr rest len)
    (hne : list ≠ []) : rest.length < list.length := by
  have h1 := (List.dropWhile_suffix (l := list) isblank).length_le
  have h2 := (List.dropWhile_suffix (l := ptr) (· != COMMA)).length_le
  have h3 := List.length_pos_iff.mpr hne
  rw [h.rest_eq, List.length_tail, h.ptr_eq] at *
  omega

theorem EntrySplit.rest_suffix {list ptr rest : List Byte} {len : Nat} (h : EntrySplit list ptr rest len) :
    rest <:+ list := by
  rw [h.rest_eq, h.ptr_eq]
  exact (List.tail_suffix _).trans ((List.dropWhile_suffix _).trans (List.dropWhile_suffix _))

theorem portEntries_nil : portEntries [] = [] := by
  rw [portEntries_eq, nextOption, dif_pos rfl]

theorem portEntries_mem (list ptr : List Byte) (len : Nat) (h : (ptr, len) ∈ portEntries list) :
    ptr <:+ list ∧ len = ((ptr.takeWhile (· != COMMA)).rdropWhile isblank).length := by
  induction hn : list.length using Nat.strong_induction_on generalizing list with
  | _ n ih =>
    by_cases hne : list = []
    · rw [hne, portEntries_nil] at h
      cases h
    · obtain ⟨ptr', rest, len', hsplit, hstep⟩ := portEntries_step list hne
      rw [hstep, List.mem_append] at h
      rcases h with h | h
      · split_ifs at h
        · cases h
        · obtain ⟨rfl, rfl⟩ := Prod.mk.inj (List.mem_singleton.mp h)
          refine ⟨?_, hsplit.len_eq⟩
          rw [hsplit.ptr_eq]
          exact List.dropWhile_suffix _
      · obtain ⟨hptr, hlen⟩ := ih rest.length (hn ▸ hsplit.rest_lt hne) rest h rfl
        exact ⟨hptr.trans hsplit.rest_suffix, hlen⟩

/-- Each byte that is neither a blank nor a comma stands in an entry. -/
theorem portEntries_byte (list before after : List Byte) (c : Byte) (hlist : list = before ++ c :: after)
    (hblank : isblank c = false) (hcomma : c ≠ COMMA) :
    ∃ ptr len before', (ptr, len) ∈ portEntries list ∧ ptr = before' ++ c :: after ∧ before'.length < len := by
  induction hn : list.length using Nat.strong_induction_on generalizing list before with
  | _ n ih =>
    have hne : list ≠ [] := by simp [hlist]
    obtain ⟨ptr, rest, len, hsplit, hstep⟩ := portEntries_step list hne
    obtain ⟨before', hptr⟩ : ∃ before', ptr = before' ++ c :: after := by
      rw [hsplit.ptr_eq, hlist, List.dropWhile_append]
      split_ifs
      · exact ⟨[], by rw [List.dropWhile_cons_of_neg (by rw [hblank]; decide), List.nil_append]⟩
      · exact ⟨_, rfl⟩
    obtain ⟨value, hvalue⟩ : ∃ value, value = ptr.takeWhile (· != COMMA) := ⟨_, rfl⟩
    have hsep := List.takeWhile_append_dropWhile (p := (· != COMMA)) (l := ptr)
    rw [← hvalue] at hsep
    by_cases hfirst : before'.length < value.length
    · have hget : value[before'.length]? = some c := by
        have htake := List.prefix_iff_eq_take.mp (hvalue ▸ List.takeWhile_prefix _ : value <+: ptr)
        rw [htake, List.getElem?_take_of_lt hfirst, hptr, List.getElem?_append_right le_rfl, Nat.sub_self]
        rfl
      have hlt := lt_rdropWhile hget hblank
      rw [hvalue, ← hsplit.len_eq] at hlt
      refine ⟨ptr, len, before', ?_, hptr, hlt⟩
      rw [hstep, if_neg (by omega)]
      exact List.mem_append_left _ (List.mem_singleton.mpr rfl)
    · -- The comma stands between the value and the byte.
      have hfront : value <+: ptr := ⟨_, hsep⟩
      have hbefore : before' <+: ptr := ⟨_, hptr.symm⟩
      obtain ⟨t, rfl⟩ := List.prefix_of_prefix_length_le hfront hbefore (by omega)
      have hdrop : ptr.dropWhile (· != COMMA) = t ++ c :: after :=
        List.append_cancel_left (hsep.trans (hptr.trans (List.append_assoc _ _ _)))
      cases t with
      | nil =>
        have hstop := Scan.head_dropWhile (· != COMMA) ptr c (by rw [hdrop]; rfl)
        exact absurd (by simpa using hstop) hcomma
      | cons d t =>
        have hrest : rest = t ++ c :: after := by
          rw [hsplit.rest_eq, hdrop]
          rfl
        obtain ⟨ptr', len', before'', hmem, hptr', hlt⟩ := ih rest.length (hn ▸ hsplit.rest_lt hne) rest t hrest rfl
        refine ⟨ptr', len', before'', ?_, hptr', hlt⟩
        rw [hstep]
        exact List.mem_append_right _ hmem

/-- Behind an entry there is no suffix character. -/
theorem behindEntry_noSuffix (ptr : List Byte) :
    isPortSuffix (deref (ptr.drop ((ptr.takeWhile (· != COMMA)).rdropWhile isblank).length)) = false := by
  obtain ⟨value, hvalue⟩ : ∃ value, value = ptr.takeWhile (· != COMMA) := ⟨_, rfl⟩
  obtain ⟨rest, hrest⟩ : ∃ rest, rest = ptr.dropWhile (· != COMMA) := ⟨_, rfl⟩
  have hblank : ∀ c, isblank c = true → isPortSuffix c = false := byte_all _ (by decide +kernel)
  have hptr : ptr = value.rdropWhile isblank ++ (value.rtakeWhile isblank ++ rest) := by
    rw [← List.append_assoc, List.rdropWhile_append_rtakeWhile, hvalue, hrest, List.takeWhile_append_dropWhile]
  have hdrop : ptr.drop (value.rdropWhile isblank).length = value.rtakeWhile isblank ++ rest := by
    conv_lhs => rw [hptr]
    exact List.drop_left
  rw [← hvalue, hdrop]
  cases hblanks : value.rtakeWhile isblank with
  | nil =>
    rw [List.nil_append]
    cases hr : rest with
    | nil => rfl
    | cons c t =>
      have hstop := Scan.head_dropWhile (· != COMMA) ptr c (by rw [← hrest, hr]; rfl)
      have hcomma : c = COMMA := by simpa using hstop
      rw [hcomma]
      rfl
  | cons c t => exact hblank c (List.mem_rtakeWhile_imp (by rw [hblanks]; exact List.mem_cons_self))

/-! ### What is found in the list -/

/-- A digit in front of a suffix for TLS, `i` bytes from the beginning. -/
def MarkAt (s : List Byte) (i : Nat) : Prop :=
  ∃ before d after, s = before ++ d :: after ∧ isdigit d = true ∧ suffixAhead after = true ∧ i = before.length

theorem markAt_zero (s : List Byte) :
    MarkAt s 0 ↔ isdigit (deref s) = true ∧ suffixAhead s.tail = true := by
  constructor
  · rintro ⟨before, d, after, rfl, hd, hafter, hzero⟩
    obtain rfl := List.eq_nil_of_length_eq_zero hzero.symm
    exact ⟨hd, hafter⟩
  · rintro ⟨hd, hafter⟩
    cases s with
    | nil => cases hd
    | cons d t => exact ⟨[], d, t, rfl, hd, hafter, rfl⟩

theorem markAt_succ (s : List Byte) (i : Nat) : MarkAt s (i + 1) ↔ MarkAt s.tail i := by
  constructor
  · rintro ⟨before, d, after, rfl, hd, hafter, hlen⟩
    cases before with
    | nil => cases hlen
    | cons c before => exact ⟨before, d, after, rfl, hd, hafter, Nat.succ.inj hlen⟩
  · rintro ⟨before, d, after, htail, hd, hafter, hlen⟩
    cases s with
    | nil => cases before <;> cases htail
    | cons c t =>
      rw [List.tail_cons] at htail
      exact ⟨c :: before, d, after, by rw [htail]; rfl, hd, hafter, by rw [hlen]; rfl⟩

theorem isSslPortLoop_iff (ports : List Byte) (prevIsNumber : Bool) (n : Nat) :
    isSslPortLoop ports prevIsNumber n = true ↔
      (prevIsNumber = true ∧ suffixAhead ports = true ∧ 0 < n) ∨ ∃ i, i + 1 < n ∧ MarkAt ports i := by
  induction n generalizing ports prevIsNumber with
  | zero => simp [isSslPortLoop]
  | succ n ih =>
    rw [isSslPortLoop]
    by_cases hmark : prevIsNumber = true ∧ suffixAhead ports = true
    · rw [if_pos (by rw [hmark.1, hmark.2]; rfl)]
      exact iff_of_true rfl (.inl ⟨hmark.1, hmark.2, Nat.succ_pos n⟩)
    · rw [if_neg (by rw [Bool.and_eq_true]; exact hmark), ih]
      constructor
      · rintro (⟨hd, hafter, hn⟩ | ⟨i, hi, hat⟩)
        · exact .inr ⟨0, by omega, (markAt_zero ports).mpr ⟨hd, hafter⟩⟩
        · exact .inr ⟨i + 1, by omega, (markAt_succ ports i).mpr hat⟩
      · rintro (⟨hprev, hahead, -⟩ | ⟨i, hi, hat⟩)
        · exact absurd ⟨hprev, hahead⟩ hmark
        · cases i with
          | zero => exact .inl (by rw [markAt_zero] at hat; exact ⟨hat.1, hat.2, by omega⟩)
          | succ i => exact .inr ⟨i, by omega, (markAt_succ ports i).mp hat⟩

section
variable (b : PortBuild) (ports : List Byte)

def ListenSocket.Tls (so : ListenSocket) : Prop := so.isSsl = true ∨ so.sslRedir = true

/-- The text of an accepted entry in front of its suffix; a socket file has no suffix. -/
def addressPart (so : ListenSocket) (entry : List Byte) : List Byte :=
  match so.lsa with
  | .unix _ => entry
  | _ => entry.rdropWhile isPortSuffix

/-- The byte behind the first `i` of an entry at `ptr` is among the `(int)strlen(ports)` that are looked at. -/
def InReach (ptr : List Byte) (i : Nat) : Prop := ((ports.length - ptr.length + i : Nat) : Int) < portsLen ports

/-- The port of some TLS entry ends in a decimal digit. -/
def DecimalTlsPort : Prop :=
  ∃ ptr len so, (ptr, len) ∈ portEntries ports ∧ parsePortString b ptr len = some so ∧ so.Tls ∧
    ∃ text d, addressPart so (ptr.take len) = text ++ [d] ∧ isdigit d = true ∧
      InReach ports ptr (text.length + 1)

/-- Some address has a digit with `s`, `r`, `os` or `or` behind it. -/
def MarkedAddress : Prop :=
  ∃ ptr len so, (ptr, len) ∈ portEntries ports ∧ parsePortString b ptr len = some so ∧
    ∃ before d after, addressPart so (ptr.take len) = before ++ d :: after ∧ isdigit d = true ∧
      suffixAhead after = true ∧ InReach ports ptr (before.length + 1)

theorem addressPart_suffix (so : ListenSocket) (number suffix : List Byte) (d : Byte)
    (hunix : ¬ ∃ path, so.lsa = .unix path) (hd : isxdigit d = true) (hsuffix : ∀ c ∈ suffix, isPortSuffix c = true) :
    addressPart so (number ++ d :: suffix) = number ++ [d] := by
  have hpart : addressPart so (number ++ d :: suffix) = (number ++ d :: suffix).rdropWhile isPortSuffix := by
    unfold addressPart
    split
    · rename_i path hlsa
      exact absurd ⟨path, hlsa⟩ hunix
    · rfl
  have hreverse : (number ++ d :: suffix).reverse = suffix.reverse ++ d :: number.reverse := by simp
  rw [hpart, List.rdropWhile, hreverse, Scan.dropWhile_stop isPortSuffix suffix.reverse d number.reverse
    (fun c hc => hsuffix c (List.mem_reverse.mp hc)) (isxdigit_noSuffix d hd)]
  simp

/-- A byte that is no suffix character is the last digit of the port or stands in front of it. -/
theorem split_number {number suffix first rest : List Byte} {d c : Byte}
    (h : number ++ d :: suffix = first ++ c :: rest) (hc : isPortSuffix c = false)
    (hall : ∀ a ∈ suffix, isPortSuffix a = true) :
    (first = number ∧ c = d ∧ rest = suffix) ∨ ∃ t, number = first ++ c :: t ∧ rest = t ++ d :: suffix := by
  rcases List.append_eq_append_iff.mp h with ⟨t, hfirst, ht⟩ | ⟨t, hnumber, ht⟩
  · cases t with
    | nil =>
      obtain ⟨rfl, rfl⟩ := List.cons.inj ht
      exact .inl ⟨by rw [hfirst, List.append_nil], rfl, rfl⟩
    | cons e t =>
      obtain ⟨-, rfl⟩ := List.cons.inj ht
      rw [hall c (by simp)] at hc
      cases hc
  · cases t with
    | nil =>
      obtain ⟨rfl, rfl⟩ := List.cons.inj ht
      exact .inl ⟨by rw [hnumber, List.append_nil], rfl, rfl⟩
    | cons e t =>
      obtain ⟨rfl, rfl⟩ := List.cons.inj ht
      exact .inr ⟨t, hnumber, rfl⟩

/-- A digit in front of a suffix lies in an entry, as the last of its port or in its address. -/
theorem markAt_entry (hall : ∀ e ∈ portEntries ports, ∃ so, parsePortString b e.1 e.2 = some so)
    (i : Nat) (hi : (i : Int) + 1 < portsLen ports) (h : MarkAt ports i) :
    DecimalTlsPort b ports ∨ MarkedAddress b ports := by
  obtain ⟨before, c, after, hports, hc, hafter, rfl⟩ := h
  have hplain : ∀ c, isdigit c = true → isblank c = false ∧ c ≠ COMMA ∧ isPortSuffix c = false :=
    byte_all _ (by decide +kernel)
  obtain ⟨hblank, hcomma, hnosuffix⟩ := hplain c hc
  obtain ⟨ptr, len, first, hmem, hptr, hlt⟩ := portEntries_byte ports before after c hports hblank hcomma
  obtain ⟨so, hso⟩ := hall (ptr, len) hmem
  obtain ⟨hsuffix, hlen⟩ := portEntries_mem ports ptr len hmem
  have hreach : InReach ports ptr (first.length + 1) := by
    have hle := hsuffix.length_le
    have hfirst := congrArg List.length hptr
    have hbefore := congrArg List.length hports
    simp only [List.length_append, List.length_cons] at hfirst hbefore
    unfold InReach
    omega
  obtain ⟨m, hm⟩ := Nat.exists_eq_add_of_lt hlt
  have htake : ptr.take len = first ++ c :: after.take m := by
    rw [hptr, hm, List.take_append, List.take_of_length_le (by omega), Nat.add_assoc, Nat.add_sub_cancel_left,
      List.take_succ_cons]
  have hahead : suffixAhead (after.take m) = true := by
    have hdrop : ptr.drop len = after.drop m := by
      rw [hptr, hm, List.drop_append, List.drop_eq_nil_of_le (by omega), Nat.add_assoc, Nat.add_sub_cancel_left]
      rfl
    have hbehind := behindEntry_noSuffix ptr
    rw [← hlen, hdrop] at hbehind
    exact suffixAhead_of_append hbehind (by rw [List.take_append_drop]; exact hafter)
  rcases parsePortString_shape b ptr len so hlen hso with
    ⟨⟨path, hunix⟩, -⟩ | ⟨hunix, number, d, suffix, hentry, hd, hflags⟩
  · refine .inr ⟨ptr, len, so, hmem, hso, first, c, after.take m, ?_, hc, hahead, hreach⟩
    rw [addressPart, hunix, htake]
  · have hall := (portSuffix_flags _ _ suffix hflags).1
    have hpart := addressPart_suffix so number suffix d hunix hd hall
    rw [← hentry] at hpart
    rcases split_number (hentry.symm.trans htake) hnosuffix hall with ⟨rfl, rfl, hrest⟩ | ⟨t, hnumber, hrest⟩
    · rw [hrest] at hahead
      exact .inl ⟨ptr, len, so, hmem, hso, portSuffix_tls suffix _ hflags hahead, first, c, hpart, hc, hreach⟩
    · rw [hrest] at hahead
      have hfront := suffixAhead_of_append (t := d :: suffix) (isxdigit_noSuffix d hd) hahead
      refine .inr ⟨ptr, len, so, hmem, hso, first, c, t ++ [d], ?_, hc, suffixAhead_append [d] hfront, hreach⟩
      rw [hpart, hnumber]
      simp

/-- What is found in an entry is found in the list. -/
theorem entry_markAt {ptr before after : List Byte} {d : Byte} (hsuffix : ptr <:+ ports)
    (hptr : ptr = before ++ d :: after) (hd : isdigit d = true) (hafter : suffixAhead after = true)
    (hreach : InReach ports ptr (before.length + 1)) :
    ∃ i : Nat, (i : Int) + 1 < portsLen ports ∧ MarkAt ports i := by
  obtain ⟨skipped, rfl⟩ := hsuffix
  refine ⟨skipped.length + before.length, ?_, skipped ++ before, d, after, ?_, hd, hafter, ?_⟩
  · unfold InReach at hreach
    rw [List.length_append, Nat.add_sub_cancel] at hreach
    omega
  · rw [hptr, List.append_assoc]
  · rw [List.length_append]

theorem decimalTlsPort_mark (h : DecimalTlsPort b ports) :
    ∃ i : Nat, (i : Int) + 1 < portsLen ports ∧ MarkAt ports i := by
  obtain ⟨ptr, len, so, hmem, hso, htls, text, c, htext, hc, hreach⟩ := h
  obtain ⟨hsuffix, hlen⟩ := portEntries_mem ports ptr len hmem
  rcases parsePortString_shape b ptr len so hlen hso with
    ⟨-, hssl, hredir⟩ | ⟨hunix, number, d, suffix, hentry, hd, hflags⟩
  · rcases htls with htls | htls
    · rw [hssl] at htls
      cases htls
    · rw [hredir] at htls
      cases htls
  · have hpart := addressPart_suffix so number suffix d hunix hd (portSuffix_flags _ _ suffix hflags).1
    rw [← hentry, htext] at hpart
    obtain ⟨rfl, hcd⟩ := List.append_inj' hpart rfl
    obtain rfl := List.singleton_inj.mp hcd
    refine entry_markAt ports hsuffix ?_ hc (suffixAhead_append (ptr.drop len) (portSuffix_ahead suffix _ hflags htls))
      hreach
    conv_lhs => rw [← List.take_append_drop len ptr, hentry]
    simp

theorem markedAddress_mark (h : MarkedAddress b ports) :
    ∃ i : Nat, (i : Int) + 1 < portsLen ports ∧ MarkAt ports i := by
  obtain ⟨ptr, len, so, hmem, hso, before, d, after, hpart, hd, hafter, hreach⟩ := h
  obtain ⟨hsuffix, -⟩ := portEntries_mem ports ptr len hmem
  have hfront : addressPart so (ptr.take len) <+: ptr := by
    unfold addressPart
    split
    · exact List.take_prefix _ _
    · exact (List.rdropWhile_prefix _ _).trans (List.take_prefix _ _)
  obtain ⟨rest, hrest⟩ := hfront
  rw [hpart, List.append_assoc] at hrest
  exact entry_markAt ports hsuffix hrest.symm hd (suffixAhead_append rest hafter) hreach

/-- On a list of accepted entries with a TLS port `is_ssl_port_used` returns 1 exactly if the port of a TLS entry
ends in a decimal digit, as not every hexadecimal one does, or if an address looks as if it did. -/
theorem isSslPortUsed_iff (hall : ∀ e ∈ portEntries ports, ∃ so, parsePortString b e.1 e.2 = some so)
    (_htls : ∃ e ∈ portEntries ports, ∃ so, parsePortString b e.1 e.2 = some so ∧ so.Tls) :
    isSslPortUsed (some ports) = true ↔ DecimalTlsPort b ports ∨ MarkedAddress b ports := by
  have hloop : isSslPortUsed (some ports) = true ↔ ∃ i : Nat, (i : Int) + 1 < portsLen ports ∧ MarkAt ports i := by
    rw [isSslPortUsed, isSslPortLoop_iff]
    constructor
    · rintro (⟨hfalse, -⟩ | ⟨i, hi, hat⟩)
      · cases hfalse
      · exact ⟨i, by omega, hat⟩
    · rintro ⟨i, hi, hat⟩
      exact .inr ⟨i, by omega, hat⟩
  rw [hloop]
  constructor
  · rintro ⟨i, hi, hat⟩
    exact markAt_entry b ports hall i hi hat
  · rintro (h | h)
    · exact decimalTlsPort_mark b ports h
    · exact markedAddress_mark b ports h

end

/-- A build in which only plain ports are accepted. -/
def plainPorts : PortBuild := ⟨false, false, fun _ => none, fun _ _ => none⟩

theorem portEntries_single (text : List Byte) (hne : text ≠ []) (hchars : ∀ c ∈ text, itemChar c = true) :
    portEntries text = [(text, text.length)] := by
  have hend : Behind [] := nofun
  have hnext := nextOption_item hne hchars hend
  rw [List.append_nil] at hnext
  rw [portEntries_eq, hnext]
  dsimp only
  rw [List.tail_nil, portEntries_nil]

/-- The TLS port 443 in hexadecimal is accepted but not found. -/
theorem isSslPortUsed_hexadecimal :
    ¬ ((∀ e ∈ portEntries (ascii "0x1bbs"), ∃ so, parsePortString plainPorts e.1 e.2 = some so) →
      (∃ e ∈ portEntries (ascii "0x1bbs"), ∃ so, parsePortString plainPorts e.1 e.2 = some so ∧ so.Tls) →
      isSslPortUsed (some (ascii "0x1bbs")) = true) := by
  have hentries : portEntries (ascii "0x1bbs") = [(ascii "0x1bbs", 6)] :=
    portEntries_single _ (by decide) (by decide)
  have haccepted : parsePortString plainPorts (ascii "0x1bbs") 6 =
      some ⟨⟨false, false, true⟩, .inet 0 443, 4⟩ := by rfl
  have hnone : isSslPortUsed (some (ascii "0x1bbs")) = false := by decide +kernel
  intro h
  rw [hentries, hnone] at h
  refine Bool.false_ne_true (h ?_ ⟨_, List.mem_singleton.mpr rfl, _, haccepted, .inl rfl⟩)
  intro e he
  rw [List.mem_singleton.mp he]
  exact ⟨_, haccepted⟩

theorem isSslPortUsed_iff_https : isSslPortUsed (some (ascii "443s")) = true := by
  have hentries : portEntries (ascii "443s") = [(ascii "443s", 4)] :=
    portEntries_single _ (by decide) (by decide)
  have haccepted : parsePortString plainPorts (ascii "443s") 4 =
      some ⟨⟨false, false, true⟩, .inet 0 443, 4⟩ := by rfl
  have hmem : (ascii "443s", 4) ∈ portEntries (ascii "443s") := by
    rw [hentries]
    exact List.mem_singleton.mpr rfl
  refine (isSslPortUsed_iff plainPorts (ascii "443s") ?_ ⟨_, hmem, _, haccepted, .inl rfl⟩).mpr (.inl ?_)
  · intro e he
    rw [hentries] at he
    rw [List.mem_singleton.mp he]
    exact ⟨_, haccepted⟩
  · refine ⟨_, _, _, hmem, haccepted, .inl rfl, ascii "44", 51, by decide +kernel, by decide, ?_⟩
    unfold InReach
    decide +kernel

end CivetWeb
