import CivetWeb.Acl.CheckAcl

namespace CivetWeb

/-- Bit `k` of an address, the first one at 0. -/
def Octets.bit {w : Nat} (addr : Octets w) (k : Fin (8 * w)) : Bool :=
  (addr ⟨k / 8, by omega⟩).getMsbD (k % 8)

/-- The first `n` bits of `addr` and `net` are the same, and the others of `net` are 0. -/
def InNet {w : Nat} (n : Nat) (addr net : Octets w) : Prop :=
  ∀ k : Fin (8 * w), if k < n then addr.bit k = net.bit k else net.bit k = false

instance {w : Nat} (n : Nat) (addr net : Octets w) : Decidable (InNet n addr net) :=
  inferInstanceAs (Decidable (∀ k : Fin (8 * w),
    if k < n then addr.bit k = net.bit k else net.bit k = false))

theorem getMsbD_ntohl (addr : Octets 4) (k : Fin 32) :
    (ntohl addr).getMsbD k = addr.bit ⟨k, k.isLt⟩ := by
  obtain ⟨k, hk⟩ := k
  unfold ntohl Octets.bit BitVec.getMsbD
  interval_cases k <;> simp

/-- The mask has ones in the first `slash` bits. -/
theorem getMsbD_mask (slash k : Nat) (hslash : slash ≤ 32) (hk : k < 32) :
    (if slash ≠ 0 then 0xFFFFFFFF#32 <<< (32 - slash) else 0#32).getMsbD k = decide (k < slash) := by
  have hones : 0xFFFFFFFF#32 = BitVec.allOnes 32 := rfl
  split_ifs with h
  · rw [hones, BitVec.getMsbD_shiftLeft, BitVec.getMsbD_allOnes]
    exact decide_eq_decide.mpr (by omega)
  · have h0 : ¬ k < slash := by omega
    simp [h0]

theorem masked_bit (x y : Bool) (n k : Nat) :
    (x && decide (k < n)) = y ↔ if k < n then x = y else y = false := by
  split_ifs with h <;> simp [h, eq_comm]

theorem matchIpv4_iff (n slash : Nat) (addr net : Octets 4) (hslash : slash ≤ 32) :
    matchIpv4 ⟨n, (net 0).toNat, (net 1).toNat, (net 2).toNat, (net 3).toNat, slash⟩ addr = true ↔
      InNet slash addr net := by
  have hnet : (BitVec.ofNat 32 (net 0).toNat <<< 24) ||| (BitVec.ofNat 32 (net 1).toNat <<< 16) |||
      (BitVec.ofNat 32 (net 2).toNat <<< 8) ||| BitVec.ofNat 32 (net 3).toNat = ntohl net := by
    simp only [BitVec.ofNat_toNat, ntohl]
  rw [matchIpv4]
  dsimp only
  rw [hnet, beq_iff_eq]
  constructor
  · intro heq k
    have hk : (k : Nat) < 32 := k.isLt
    have hbit := congrArg (fun x => x.getMsbD k) heq
    rw [BitVec.getMsbD_and, getMsbD_mask slash k hslash hk, getMsbD_ntohl addr ⟨k, hk⟩,
      getMsbD_ntohl net ⟨k, hk⟩] at hbit
    exact (masked_bit _ _ _ _).mp hbit
  · intro h
    refine BitVec.eq_of_getMsbD_eq (fun k hk => ?_)
    rw [BitVec.getMsbD_and, getMsbD_mask slash k hslash hk, getMsbD_ntohl addr ⟨k, hk⟩,
      getMsbD_ntohl net ⟨k, hk⟩]
    exact (masked_bit _ _ _ _).mpr (h ⟨k, hk⟩)

theorem getMsbD_ipv6Mask (slash i r : Nat) (hr : r < 8) :
    (ipv6Mask slash i).getMsbD r = decide (8 * i + r < slash) := by
  have hones : 0xFF#8 = BitVec.allOnes 8 := rfl
  unfold ipv6Mask
  split_ifs with h1 h2
  · have h : 8 * i + r < slash := by omega
    rw [hones, BitVec.getMsbD_allOnes]
    simp [h, hr]
  · rw [hones, BitVec.getMsbD_shiftLeft, BitVec.getMsbD_allOnes]
    exact decide_eq_decide.mpr (by omega)
  · have h : ¬ 8 * i + r < slash := by omega
    simp [h]

theorem matchIpv6_iff (slash : Nat) (addr net : Octets 16) :
    matchIpv6 addr net slash = true ↔ InNet slash addr net := by
  rw [matchIpv6, decide_eq_true_eq]
  constructor
  · intro heq k
    have hbit := congrArg (fun x => x.getMsbD (k % 8)) (heq ⟨k / 8, by omega⟩)
    dsimp only at hbit
    rw [BitVec.getMsbD_and, getMsbD_ipv6Mask slash _ _ (by omega), Nat.div_add_mod] at hbit
    exact (masked_bit _ _ _ _).mp hbit
  · intro h i
    refine BitVec.eq_of_getMsbD_eq (fun r hr => ?_)
    have hk := h ⟨8 * i + r, by omega⟩
    rw [← masked_bit] at hk
    have hdiv : (8 * (i : Nat) + r) / 8 = i := by omega
    have hmod : (8 * (i : Nat) + r) % 8 = r := by omega
    rw [BitVec.getMsbD_and, getMsbD_ipv6Mask slash _ _ hr]
    simpa only [Octets.bit, hdiv, hmod] using hk

/-! ### The items of a list -/

/-- A subnet of an access control list as it is documented; without `/n` it is a single address. -/
inductive Subnet where
  | v4 (net : Octets 4) (n : Option (Fin 33))
  | v6 (text : List Byte) (brackets : Bool) (n : Option (Fin 129))

structure AclItem where
  allow : Bool
  subnet : Subnet

def slashText {m : Nat} : Option (Fin m) → List Byte
  | none => []
  | some n => SLASH :: decText n

def Subnet.text : Subnet → List Byte
  | .v4 net n =>
    decText (net 0).toNat ++ DOT :: (decText (net 1).toNat ++ DOT :: (decText (net 2).toNat ++
      DOT :: (decText (net 3).toNat ++ slashText n)))
  | .v6 text brackets n =>
    (if brackets then LBRACKET :: (text ++ [RBRACKET]) else text) ++ slashText n

def AclItem.text (item : AclItem) : List Byte :=
  (if item.allow then PLUS else MINUS) :: item.subnet.text

def aclText (items : List AclItem) : List Byte := [COMMA].intercalate (items.map AclItem.text)

section Items
variable (useIpv6 : Bool) (mgInetPton : List Byte → Option (Octets 16))

/-- An IPv6 subnet is written with the text of an address, and needs `USE_IPV6`. -/
def Subnet.Valid : Subnet → Prop
  | .v4 _ _ => True
  | .v6 text _ _ =>
    useIpv6 = true ∧ text.all ipv6Char = true ∧ 2 ≤ text.count COLON ∧ text.length < 50 ∧
      (mgInetPton text).isSome = true

/-- The subnet is of the family of the address and contains it. -/
def Subnet.contains : Subnet → Usa → Bool
  | .v4 net n, .inet addr => decide (InNet (n.elim 32 Fin.val) addr net)
  | .v6 text _ n, .inet6 addr =>
    match mgInetPton text with
    | some net => decide (InNet (n.elim 128 Fin.val) addr net)
    | none => false
  | _, _ => false

/-- The last item with the address decides; without one it is denied. -/
def allowedBy (items : List AclItem) (sa : Usa) : Bool :=
  ((items.filter (fun item => item.subnet.contains mgInetPton sa)).getLast?.map AclItem.allow).getD
    false

end Items

/-! ### Reading an item -/

/-- What comes behind an item: nothing, or a comma. -/
def Behind (after : List Byte) : Prop := ∀ c ∈ after.head?, c = COMMA

theorem sscanf_unsigned (v : Nat) (rest : List Byte) (fmt : List ScanDirective) (pos : Nat)
    (hv : v < 2 ^ 32) (hrest : ∀ c ∈ rest.head?, isDigitIn 10 c = false ∧ c ≠ 120 ∧ c ≠ 88) :
    sscanf (.unsigned :: fmt) (decText v ++ rest) pos =
      { sscanf fmt rest (pos + (decText v).length) with
        nums := v :: (sscanf fmt rest (pos + (decText v).length)).nums } := by
  rw [sscanf, scanUnsigned_decText v rest hv hrest]
  dsimp only
  rw [List.length_append, Nat.add_sub_cancel]

theorem sscanf_lit (c : Byte) (s : List Byte) (fmt : List ScanDirective) (pos : Nat) :
    sscanf (.lit c :: fmt) (c :: s) pos = sscanf fmt s (pos + 1) := by
  rw [sscanf, if_pos rfl]

theorem behind_noDigit {after : List Byte} (h : Behind after) :
    ∀ c ∈ after.head?, isDigitIn 10 c = false ∧ c ≠ 120 ∧ c ≠ 88 := by
  intro c hc
  rw [h c hc]
  decide

theorem sscanf_lit_behind (c : Byte) (hc : c ≠ COMMA) {after : List Byte} (h : Behind after)
    (fmt : List ScanDirective) (pos : Nat) :
    sscanf (.lit c :: fmt) after pos = ⟨[], [], none⟩ := by
  cases after with
  | nil => rw [sscanf]
  | cons d s =>
    have hd : d = COMMA := h d (by simp)
    rw [sscanf, if_neg (by rw [hd]; exact hc.symm)]

/-- Four numbers with dots between them. -/
theorem sscanf_ipv4 (net : Octets 4) (rest : List Byte) (fmt : List ScanDirective)
    (hrest : ∀ c ∈ rest.head?, isDigitIn 10 c = false ∧ c ≠ 120 ∧ c ≠ 88) :
    sscanf (ipv4Format ++ fmt) ((Subnet.v4 net none).text ++ rest) 0 =
      let r := sscanf fmt rest (Subnet.v4 net none).text.length
      { r with nums := (net 0).toNat :: (net 1).toNat :: (net 2).toNat :: (net 3).toNat :: r.nums } := by
  have hsmall : ∀ i, (net i).toNat < 2 ^ 32 := by
    intro i
    have := (net i).isLt
    omega
  have hdot : ∀ s : List Byte, ∀ c ∈ (DOT :: s).head?, isDigitIn 10 c = false ∧ c ≠ 120 ∧ c ≠ 88 := by
    rintro s c ⟨⟩
    decide
  simp only [ipv4Format, Subnet.text, slashText, List.append_nil, List.append_assoc, List.cons_append,
    List.nil_append]
  rw [sscanf_unsigned _ _ _ _ (hsmall 0) (hdot _), sscanf_lit,
    sscanf_unsigned _ _ _ _ (hsmall 1) (hdot _), sscanf_lit,
    sscanf_unsigned _ _ _ _ (hsmall 2) (hdot _), sscanf_lit,
    sscanf_unsigned _ _ _ _ (hsmall 3) hrest]
  have hpos : 0 + (decText (net 0).toNat).length + 1 + (decText (net 1).toNat).length + 1 +
      (decText (net 2).toNat).length + 1 + (decText (net 3).toNat).length =
      (decText (net 0).toNat ++ DOT :: (decText (net 1).toNat ++ DOT :: (decText (net 2).toNat ++
        DOT :: decText (net 3).toNat))).length := by
    simp only [List.length_append, List.length_cons]
    omega
  rw [hpos]

/-- The scan for an IPv4 subnet reads all of one. -/
theorem scanIpv4_text (net : Octets 4) (n : Option (Fin 33)) {after : List Byte}
    (hafter : Behind after) :
    scanIpv4 ((Subnet.v4 net n).text ++ after) =
      ⟨(Subnet.v4 net n).text.length, (net 0).toNat, (net 1).toNat, (net 2).toNat, (net 3).toNat,
        n.elim 32 Fin.val⟩ := by
  have htext : (Subnet.v4 net n).text = (Subnet.v4 net none).text ++ slashText n := by
    simp [Subnet.text, slashText]
  unfold scanIpv4
  rw [htext, List.append_assoc]
  cases n with
  | none =>
    have hend := behind_noDigit hafter
    simp only [slashText, List.nil_append, List.append_nil]
    rw [sscanf_ipv4 net after _ hend, sscanf_ipv4 net after _ hend,
      sscanf_lit_behind SLASH (by decide) hafter]
    rfl
  | some n =>
    have hslash : ∀ c ∈ (slashText (some n) ++ after).head?,
        isDigitIn 10 c = false ∧ c ≠ 120 ∧ c ≠ 88 := by
      rintro c ⟨⟩
      decide
    have hn : n.val < 2 ^ 32 := by omega
    rw [sscanf_ipv4 net _ _ hslash]
    simp only [slashText, List.cons_append]
    rw [sscanf_lit, sscanf_unsigned n.val after _ _ hn (behind_noDigit hafter)]
    simp only [sscanf, List.length_append, List.length_cons, Option.elim_some, Ipv4Scan.mk.injEq,
      and_true]
    omega

theorem parseMatchNet_v4 (useIpv6 : Bool) (mgInetPton : List Byte → Option (Octets 16))
    (net : Octets 4) (n : Option (Fin 33)) (sa : Usa) {after : List Byte} (hafter : Behind after) :
    parseMatchNet useIpv6 mgInetPton ((Subnet.v4 net n).text ++ after)
        (Subnet.v4 net n).text.length sa true =
      if (Subnet.v4 net n).contains mgInetPton sa then 1 else 0 := by
  have hpos : 0 < (Subnet.v4 net n).text.length := by
    simp only [Subnet.text, List.length_append, List.length_cons]
    omega
  have hslash : n.elim 32 Fin.val ≤ 32 := by
    cases n with
    | none => exact le_refl _
    | some n => exact Nat.le_of_lt_succ n.isLt
  have hsmall : ∀ i, (net i).toNat < 256 := fun i => (net i).isLt
  unfold parseMatchNet
  rw [scanIpv4_text net n hafter]
  dsimp only
  rw [if_pos ⟨hpos, rfl⟩, if_pos ⟨hsmall 0, hsmall 1, hsmall 2, hsmall 3, by omega⟩]
  cases sa with
  | inet addr =>
    have hmatch := matchIpv4_iff (Subnet.v4 net n).text.length _ addr net hslash
    have hcontains : (Subnet.v4 net n).contains mgInetPton (.inet addr) =
        decide (InNet (n.elim 32 Fin.val) addr net) := rfl
    rw [hcontains]
    exact if_congr (hmatch.trans decide_eq_true_iff.symm) rfl rfl
  | inet6 addr => rfl
  | other => rfl

/-- The scan for an IPv4 subnet does not get past a character that is not in one. -/
theorem scanIpv4_stop (ptr : List Byte) (stop : Byte) (hstop : unsignedChar stop = false)
    (hdot : stop ≠ DOT) (hslash : stop ≠ SLASH) :
    (scanIpv4 ptr).n ≤ (ptr.takeWhile (· != stop)).length := by
  have hle := sscanf_stop stop hstop
  have hfmt5 : ∀ d ∈ ipv4Format ++ [ScanDirective.lit SLASH, .unsigned, .consumed],
      d = .unsigned ∨ d = .consumed ∨ ∃ c, d = .lit c ∧ c ≠ stop := by
    simp [ipv4Format, hdot.symm, hslash.symm]
  have hfmt4 : ∀ d ∈ ipv4Format ++ [ScanDirective.consumed],
      d = .unsigned ∨ d = .consumed ∨ ∃ c, d = .lit c ∧ c ≠ stop := by
    simp [ipv4Format, hdot.symm]
  unfold scanIpv4
  split
  · rename_i a b c d slash n heq
    simpa using hle _ hfmt5 ptr 0 n (by rw [heq])
  · split
    · rename_i a b c d n heq
      simpa using hle _ hfmt4 ptr 0 n (by rw [heq])
    · exact Nat.zero_le _

theorem ipv6Char_noSlash {text : List Byte} (h : text.all ipv6Char = true) :
    SLASH ∉ text ∧ RBRACKET ∉ text ∧ LBRACKET ∉ text := by
  rw [List.all_eq_true] at h
  refine ⟨fun hm => ?_, fun hm => ?_, fun hm => ?_⟩
  · exact absurd (h _ hm) (by decide)
  · exact absurd (h _ hm) (by decide)
  · exact absurd (h _ hm) (by decide)

/-- `%49[^]]` reads a text of up to 49 characters in front of the bracket. -/
theorem sscanf_notIn (text rest : List Byte) (fmt : List ScanDirective) (pos : Nat)
    (hne : text ≠ []) (hlen : text.length < 50) (hno : RBRACKET ∉ text) :
    sscanf (.notIn 49 RBRACKET :: fmt) (text ++ RBRACKET :: rest) pos =
      { sscanf fmt (RBRACKET :: rest) (pos + text.length) with
        texts := text :: (sscanf fmt (RBRACKET :: rest) (pos + text.length)).texts } := by
  have hall : ∀ a ∈ text, (a != RBRACKET) = true := by
    intro a ha
    rw [bne_iff_ne]
    rintro rfl
    exact hno ha
  have htake : ((text ++ RBRACKET :: rest).take 49).takeWhile (· != RBRACKET) = text := by
    rw [List.take_append, List.take_of_length_le (by omega), List.takeWhile_append_of_pos hall]
    cases hk : 49 - text.length with
    | zero => simp
    | succ k => simp
  rw [sscanf, htake]
  dsimp only
  rw [if_neg hne, List.drop_left]

section Ipv6
variable {text : List Byte} (htext : text.all ipv6Char = true) (hcolons : 2 ≤ text.count COLON)
variable (hlen : text.length < 50) {after : List Byte} (hafter : Behind after)
include htext hcolons hlen hafter

theorem scanIpv6_brackets (n : Option (Fin 129)) (n0 : Nat) :
    scanIpv6 ((Subnet.v6 text true n).text ++ after) (Subnet.v6 text true n).text.length n0 true =
      (text, n.elim 128 Fin.val, (Subnet.v6 text true n).text.length) := by
  obtain ⟨_, hno, _⟩ := ipv6Char_noSlash htext
  have hne : text ≠ [] := by
    rintro rfl
    simp at hcolons
  have hptr : (Subnet.v6 text true n).text ++ after =
      LBRACKET :: (text ++ RBRACKET :: (slashText n ++ after)) := by
    simp [Subnet.text]
  have hscan : ∀ fmt, sscanf (.lit LBRACKET :: .notIn 49 RBRACKET :: .lit RBRACKET :: fmt)
      (LBRACKET :: (text ++ RBRACKET :: (slashText n ++ after))) 0 =
        { sscanf fmt (slashText n ++ after) (text.length + 2) with
          texts := text :: (sscanf fmt (slashText n ++ after) (text.length + 2)).texts } := by
    intro fmt
    rw [sscanf_lit, sscanf_notIn _ _ _ _ hne hlen hno, sscanf_lit,
      show 0 + 1 + text.length + 1 = text.length + 2 by omega]
  have hlen' : (Subnet.v6 text true n).text.length = text.length + 2 + (slashText n).length := by
    simp only [Subnet.text, if_true, List.length_append, List.length_cons, List.length_nil]
  unfold scanIpv6
  rw [hptr, hscan, hscan, hlen']
  cases n with
  | none =>
    simp only [slashText, List.nil_append]
    rw [sscanf_lit_behind SLASH (by decide) hafter]
    rfl
  | some n =>
    have hn : n.val < 2 ^ 32 := by omega
    simp only [slashText, List.cons_append]
    rw [sscanf_lit, sscanf_unsigned n.val after _ _ hn (behind_noDigit hafter)]
    simp only [sscanf, List.length_cons, Option.elim_some, Nat.add_assoc, Nat.add_comm,
      Nat.add_left_comm]
    rfl

theorem scanIpv6_plain (n : Option (Fin 129)) (n0 : Nat) :
    scanIpv6 ((Subnet.v6 text false n).text ++ after) (Subnet.v6 text false n).text.length n0 true =
      (text, n.elim 128 Fin.val, (Subnet.v6 text false n).text.length) := by
  obtain ⟨hslash, _, hno⟩ := ipv6Char_noSlash htext
  have hall : ∀ a ∈ text, (a != SLASH) = true := by
    intro a ha
    rw [bne_iff_ne]
    rintro rfl
    exact hslash ha
  have hopen : ∀ fmt, sscanf (.lit LBRACKET :: fmt) (text ++ (slashText n ++ after)) 0 =
      ⟨[], [], none⟩ := by
    intro fmt
    cases text with
    | nil => simp at hcolons
    | cons c t =>
      have hc : c ≠ LBRACKET := by
        rintro rfl
        exact hno (by simp)
      rw [List.cons_append, sscanf, if_neg hc]
  have hptr : (Subnet.v6 text false n).text ++ after = text ++ (slashText n ++ after) := by
    simp [Subnet.text]
  have hlen' : (Subnet.v6 text false n).text.length = text.length + (slashText n).length := by
    simp [Subnet.text]
  unfold scanIpv6
  rw [hptr, hopen, hopen, hlen']
  dsimp only
  rw [if_pos ⟨rfl, rfl⟩, List.takeWhile_append_of_pos hall]
  cases n with
  | none =>
    have hfar : ¬ (SLASH ∈ text ++ (slashText (none : Option (Fin 129)) ++ after) ∧
        (text ++ (slashText (none : Option (Fin 129)) ++ after).takeWhile (· != SLASH)).length <
          text.length + (slashText (none : Option (Fin 129))).length) := by
      rintro ⟨_, h⟩
      rw [List.length_append, show (slashText (none : Option (Fin 129))).length = 0 by rfl] at h
      omega
    have hshort : text.length + (slashText (none : Option (Fin 129))).length < 50 := by
      rw [show (slashText (none : Option (Fin 129))).length = 0 by rfl]
      omega
    rw [if_neg hfar, if_pos hshort]
    simp [slashText]
  | some n =>
    have hn : n.val < 2 ^ 32 := by omega
    have hstop : (slashText (some n) ++ after).takeWhile (· != SLASH) = [] := by
      simp [slashText]
    have hnear : SLASH ∈ text ++ (slashText (some n) ++ after) ∧
        text.length < text.length + (slashText (some n)).length := by
      simp [slashText]
    have hscan : sscanf [.lit SLASH, .unsigned, .consumed] (slashText (some n) ++ after) 0 =
        ⟨[n.val], [], some (slashText (some n)).length⟩ := by
      simp only [slashText, List.cons_append]
      rw [sscanf_lit, sscanf_unsigned n.val after _ _ hn (behind_noDigit hafter)]
      simp only [sscanf, List.length_cons, Nat.zero_add, Nat.add_comm]
    rw [hstop, List.append_nil, List.drop_left, List.take_left, if_pos hnear, hscan]
    dsimp only
    rw [if_pos hlen, Nat.add_comm text.length]
    rfl

end Ipv6

end CivetWeb
