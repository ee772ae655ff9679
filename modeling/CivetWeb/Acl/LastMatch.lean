import CivetWeb.Acl.Subnets

namespace CivetWeb

theorem takeWhile_lt_of_mem {s t : List Byte} {c : Byte} (h : c ∈ s) :
    ((s ++ t).takeWhile (· != c)).length < s.length := by
  induction s with
  | nil => cases h
  | cons a s ih =>
    rw [List.cons_append]
    by_cases ha : a = c
    · rw [List.takeWhile_cons_of_neg (by simpa using ha)]
      exact Nat.succ_pos _
    · have hs : c ∈ s := by simpa [Ne.symm ha] using h
      rw [List.takeWhile_cons_of_pos (by simpa using ha)]
      exact Nat.succ_lt_succ (ih hs)

/-- The text of an IPv6 subnet is not read as one for IPv4. -/
theorem scanIpv4_v6 (text : List Byte) (brackets : Bool) (n : Option (Fin 129)) (after : List Byte)
    (hcolons : 2 ≤ text.count COLON) :
    (scanIpv4 ((Subnet.v6 text brackets n).text ++ after)).n <
      (Subnet.v6 text brackets n).text.length := by
  have hmem : COLON ∈ text := List.count_pos_iff.mp (by omega)
  cases brackets with
  | true =>
    have hle := scanIpv4_stop ((Subnet.v6 text true n).text ++ after) LBRACKET (by decide) (by decide)
      (by decide)
    refine hle.trans_lt (takeWhile_lt_of_mem ?_)
    simp [Subnet.text]
  | false =>
    have hle := scanIpv4_stop ((Subnet.v6 text false n).text ++ after) COLON (by decide) (by decide)
      (by decide)
    refine hle.trans_lt (takeWhile_lt_of_mem ?_)
    simp [Subnet.text, hmem]

section Acl
variable (useIpv6 : Bool) (mgInetPton : List Byte → Option (Octets 16))

theorem parseMatchNet_v6 (text : List Byte) (brackets : Bool) (n : Option (Fin 129)) (sa : Usa)
    {after : List Byte} (hafter : Behind after)
    (hvalid : (Subnet.v6 text brackets n).Valid useIpv6 mgInetPton) :
    parseMatchNet useIpv6 mgInetPton ((Subnet.v6 text brackets n).text ++ after)
        (Subnet.v6 text brackets n).text.length sa true =
      if (Subnet.v6 text brackets n).contains mgInetPton sa then 1 else 0 := by
  obtain ⟨huse, htext, hcolons, hlen, hpton⟩ := hvalid
  have hlt := scanIpv4_v6 text brackets n after hcolons
  have hscan : ∀ n0, scanIpv6 ((Subnet.v6 text brackets n).text ++ after)
      (Subnet.v6 text brackets n).text.length n0 true =
        (text, n.elim 128 Fin.val, (Subnet.v6 text brackets n).text.length) := by
    intro n0
    cases brackets with
    | true => exact scanIpv6_brackets htext hcolons hlen hafter n n0
    | false => exact scanIpv6_plain htext hcolons hlen hafter n n0
  have hslash : n.elim 128 Fin.val < 129 := by
    cases n with
    | none => decide
    | some n => exact n.isLt
  obtain ⟨net, hnet⟩ := Option.isSome_iff_exists.mp hpton
  unfold parseMatchNet
  dsimp only
  rw [if_neg (by omega), if_pos huse, hscan]
  dsimp only
  rw [if_pos ⟨by omega, rfl, hslash, htext, hcolons⟩]
  cases sa with
  | inet addr => rfl
  | inet6 addr =>
    have hcontains : (Subnet.v6 text brackets n).contains mgInetPton (.inet6 addr) =
        decide (InNet (n.elim 128 Fin.val) addr net) := by
      simp only [Subnet.contains, hnet]
    rw [hcontains, hnet]
    exact if_congr ((matchIpv6_iff _ addr net).trans decide_eq_true_iff.symm) rfl rfl
  | other => rfl

theorem parseMatchNet_subnet (subnet : Subnet) (sa : Usa) {after : List Byte} (hafter : Behind after)
    (hvalid : subnet.Valid useIpv6 mgInetPton) :
    parseMatchNet useIpv6 mgInetPton (subnet.text ++ after) subnet.text.length sa true =
      if subnet.contains mgInetPton sa then 1 else 0 := by
  cases subnet with
  | v4 net n => exact parseMatchNet_v4 useIpv6 mgInetPton net n sa hafter
  | v6 text brackets n => exact parseMatchNet_v6 useIpv6 mgInetPton text brackets n sa hafter hvalid

/-! ### The list -/

/-- A character of an item is neither a blank nor a comma. -/
def itemChar (c : Byte) : Bool := !isblank c && c != COMMA

theorem itemChar_digit : ∀ c, isDigitIn 10 c = true → itemChar c = true :=
  byte_all _ (by decide +kernel)

theorem itemChar_ipv6 : ∀ c, ipv6Char c = true → itemChar c = true :=
  byte_all _ (by decide +kernel)

theorem itemChar_decText (v : Nat) : ∀ c ∈ decText v, itemChar c = true :=
  fun c hc => itemChar_digit c (decText_digits v c hc)

theorem itemChar_slashText {m : Nat} (n : Option (Fin m)) : ∀ c ∈ slashText n, itemChar c = true := by
  cases n with
  | none => simp [slashText]
  | some n =>
    intro c hc
    rcases List.mem_cons.mp hc with rfl | hc
    · decide
    · exact itemChar_decText n.val c hc

theorem itemChar_text (item : AclItem) (hvalid : item.subnet.Valid useIpv6 mgInetPton) :
    ∀ c ∈ item.text, itemChar c = true := by
  have hflag : ∀ b : Bool, itemChar (if b then PLUS else MINUS) = true := by decide
  obtain ⟨allow, subnet⟩ := item
  intro c hc
  rcases List.mem_cons.mp hc with rfl | hc
  · exact hflag allow
  · have hdot : itemChar DOT = true := by decide
    cases subnet with
    | v4 net n =>
      simp only [Subnet.text, List.mem_append, List.mem_cons] at hc
      rcases hc with h | rfl | h | rfl | h | rfl | h | h
      · exact itemChar_decText _ c h
      · exact hdot
      · exact itemChar_decText _ c h
      · exact hdot
      · exact itemChar_decText _ c h
      · exact hdot
      · exact itemChar_decText _ c h
      · exact itemChar_slashText n c h
    | v6 text brackets n =>
      have htext : ∀ c ∈ text, itemChar c = true := fun c hc =>
        itemChar_ipv6 c (List.all_eq_true.mp hvalid.2.1 c hc)
      simp only [Subnet.text, List.mem_append] at hc
      rcases hc with h | h
      · cases brackets with
        | false => exact htext c h
        | true =>
          simp only [if_true, List.mem_cons, List.mem_append, List.not_mem_nil, or_false] at h
          rcases h with rfl | h | rfl
          · decide
          · exact htext c h
          · decide
      · exact itemChar_slashText n c h

theorem isblank_of_itemChar {c : Byte} (h : itemChar c = true) : isblank c = false ∧ c ≠ COMMA := by
  simpa [itemChar] using h

theorem rdropWhile_item {text : List Byte} (hne : text ≠ [])
    (hchars : ∀ c ∈ text, itemChar c = true) : text.rdropWhile isblank = text := by
  rw [List.rdropWhile_eq_self_iff]
  intro _
  exact Bool.eq_false_iff.mp (isblank_of_itemChar (hchars _ (List.getLast_mem hne))).1

/-- `next_option` takes an item off the front of a list. -/
theorem nextOption_item {text after : List Byte} (hne : text ≠ [])
    (hchars : ∀ c ∈ text, itemChar c = true) (hafter : Behind after) :
    nextOption (text ++ after) = some (text ++ after, text.length, after.tail) := by
  have hblank : (text ++ after).dropWhile isblank = text ++ after := by
    cases text with
    | nil => exact absurd rfl hne
    | cons c t =>
      have hc := (isblank_of_itemChar (hchars c (by simp))).1
      rw [List.cons_append, List.dropWhile_cons_of_neg (by simpa using hc)]
  have hcomma : ∀ c ∈ text, (c != COMMA) = true := fun c hc =>
    bne_iff_ne.mpr (isblank_of_itemChar (hchars c hc)).2
  have hbehind : after.takeWhile (· != COMMA) = [] ∧ after.dropWhile (· != COMMA) = after := by
    cases after with
    | nil => exact ⟨rfl, rfl⟩
    | cons c s =>
      obtain rfl : c = COMMA := hafter c (by simp)
      exact ⟨rfl, rfl⟩
  unfold nextOption
  rw [dif_neg (by simp [hne])]
  dsimp only
  rw [hblank, List.takeWhile_append_of_pos hcomma, List.dropWhile_append_of_pos hcomma, hbehind.1,
    hbehind.2, List.append_nil, rdropWhile_item hne hchars, if_neg (by simpa using hne)]

theorem aclText_cons (item : AclItem) (items : List AclItem) :
    ∃ after, aclText (item :: items) = item.text ++ after ∧ Behind after ∧
      after.tail = aclText items := by
  cases items with
  | nil => exact ⟨[], by simp [aclText], by simp [Behind], by simp [aclText]⟩
  | cons next items =>
    refine ⟨COMMA :: aclText (next :: items), ?_, by simp [Behind], rfl⟩
    simp [aclText, List.intercalate]

theorem checkAclLoop_done {list : List Byte} (sa : Usa) (allowed : Byte)
    (h : nextOption list = none) :
    checkAclLoop useIpv6 mgInetPton sa list allowed = if allowed = PLUS then 1 else 0 := by
  rw [checkAclLoop]
  split
  · rfl
  · rename_i heq
    rw [h] at heq
    cases heq

theorem checkAclLoop_next {list ptr rest : List Byte} {len : Nat} (sa : Usa) (allowed : Byte)
    (h : nextOption list = some (ptr, len, rest)) :
    checkAclLoop useIpv6 mgInetPton sa list allowed =
      let flag := deref ptr
      let matched :=
        if 0 < len ∧ (flag = PLUS ∨ flag = MINUS) then
          parseMatchNet useIpv6 mgInetPton ptr.tail (len - 1) sa true
        else -1
      if matched < 0 then -1
      else checkAclLoop useIpv6 mgInetPton sa rest (if matched ≠ 0 then flag else allowed) := by
  rw [checkAclLoop]
  split
  · rename_i heq
    rw [h] at heq
    cases heq
  · rename_i heq
    rw [h] at heq
    cases heq
    rfl

/-- One turn of the loop of `check_acl` at a valid item. -/
theorem checkAclLoop_item (item : AclItem) (items : List AclItem) (sa : Usa) (allowed : Byte)
    (hvalid : item.subnet.Valid useIpv6 mgInetPton) :
    checkAclLoop useIpv6 mgInetPton sa (aclText (item :: items)) allowed =
      checkAclLoop useIpv6 mgInetPton sa (aclText items)
        (if item.subnet.contains mgInetPton sa then if item.allow then PLUS else MINUS
          else allowed) := by
  obtain ⟨after, htext, hafter, htail⟩ := aclText_cons item items
  have hne : item.text ≠ [] := List.cons_ne_nil _ _
  have hnext := nextOption_item hne (itemChar_text useIpv6 mgInetPton item hvalid) hafter
  have hflag : deref (item.text ++ after) = if item.allow then PLUS else MINUS := rfl
  have hsign : 0 < item.text.length ∧ ((if item.allow then PLUS else MINUS) = PLUS ∨
      (if item.allow then PLUS else MINUS) = MINUS) := by
    refine ⟨List.length_pos_iff.mpr hne, ?_⟩
    cases item.allow
    · exact Or.inr rfl
    · exact Or.inl rfl
  have hlen : item.text.length - 1 = item.subnet.text.length := rfl
  have hrest : (item.text ++ after).tail = item.subnet.text ++ after := rfl
  have hmatch := parseMatchNet_subnet useIpv6 mgInetPton item.subnet sa hafter hvalid
  rw [htext, checkAclLoop_next useIpv6 mgInetPton sa allowed hnext]
  simp only [hflag, if_pos hsign, hlen, hrest, hmatch, htail]
  cases item.subnet.contains mgInetPton sa
  · rfl
  · rfl

theorem checkAclLoop_items (items : List AclItem) (sa : Usa) (allowed : Byte)
    (hvalid : ∀ item ∈ items, item.subnet.Valid useIpv6 mgInetPton) :
    checkAclLoop useIpv6 mgInetPton sa (aclText items) allowed =
      if ((items.filter (fun item => item.subnet.contains mgInetPton sa)).getLast?.map
        AclItem.allow).getD (allowed == PLUS) then 1 else 0 := by
  induction items generalizing allowed with
  | nil =>
    have hnil : aclText [] = [] := rfl
    have hnone : nextOption [] = none := by rw [nextOption, dif_pos rfl]
    rw [hnil, checkAclLoop_done useIpv6 mgInetPton sa allowed hnone]
    simp
  | cons item items ih =>
    rw [checkAclLoop_item useIpv6 mgInetPton item items sa allowed (hvalid item (by simp)),
      ih _ (fun i hi => hvalid i (by simp [hi]))]
    by_cases hc : item.subnet.contains mgInetPton sa = true
    · rw [if_pos hc, List.filter_cons_of_pos (a := item) hc, List.getLast?_cons]
      cases hlast : (items.filter (fun item => item.subnet.contains mgInetPton sa)).getLast? with
      | none =>
        have hflag : ((if item.allow then PLUS else MINUS) == PLUS) = item.allow := by
          cases item.allow <;> rfl
        rw [hflag]
        rfl
      | some last => simp
    · rw [if_neg hc, List.filter_cons_of_neg (a := item) hc]

/-! ### Lists accepted at startup -/

/-- The address 0 that `set_acl_option` tries the list on. -/
def startupUsa : Usa := if useIpv6 then .inet6 (fun _ => 0#8) else .inet (fun _ => 0#8)

/-- A subnet that is malformed for some client is malformed at startup. -/
theorem parseMatchNet_startup {ptr : List Byte} {len : Nat} {sa : Usa} {noStrict : Bool}
    (h : parseMatchNet useIpv6 mgInetPton ptr len sa noStrict < 0) :
    parseMatchNet useIpv6 mgInetPton ptr len (startupUsa useIpv6) noStrict < 0 := by
  have hzero : ¬ (0 : Int) < 0 := lt_irrefl 0
  have hfound : ∀ b : Bool, ¬ (if b then (1 : Int) else 0) < 0 := by decide
  unfold parseMatchNet at h ⊢
  dsimp only at h ⊢
  split_ifs at h ⊢ with h4 hsmall huse h6
  · cases sa with
    | inet addr => exact absurd h (hfound _)
    | inet6 addr => exact absurd h hzero
    | other => exact absurd h hzero
  · decide
  · have hsa : startupUsa useIpv6 = .inet6 (fun _ => 0#8) := if_pos huse
    rw [hsa]
    cases sa with
    | inet addr => exact absurd h hzero
    | inet6 addr =>
      dsimp only at h ⊢
      cases hnet : mgInetPton (scanIpv6 ptr len (scanIpv4 ptr).n noStrict).1 with
      | none => exact neg_one_lt_zero
      | some net =>
        rw [hnet] at h
        exact absurd h (hfound _)
    | other => exact absurd h hzero
  · decide
  · decide

theorem checkAclLoop_startup (sa : Usa) (list : List Byte) (allowed allowed' : Byte)
    (h : checkAclLoop useIpv6 mgInetPton (startupUsa useIpv6) list allowed ≠ -1) :
    checkAclLoop useIpv6 mgInetPton sa list allowed' ≠ -1 := by
  fun_induction checkAclLoop useIpv6 mgInetPton (startupUsa useIpv6) list allowed
    generalizing allowed' with
  | case1 list hdone | case2 list allowed hdone =>
    rw [checkAclLoop_done useIpv6 mgInetPton sa allowed' hdone]
    split_ifs <;> decide
  | case3 => exact absurd rfl h
  | case4 list allowed ptr len rest hnext flag matched hmatched ih =>
    have hsa : ¬ (if 0 < len ∧ (flag = PLUS ∨ flag = MINUS) then
        parseMatchNet useIpv6 mgInetPton ptr.tail (len - 1) sa true else -1) < 0 := by
      intro hneg
      refine hmatched ?_
      simp only [matched]
      split_ifs at hneg ⊢ with hsign
      · exact parseMatchNet_startup useIpv6 mgInetPton hneg
      · exact neg_one_lt_zero
    rw [checkAclLoop_next useIpv6 mgInetPton sa allowed' hnext]
    dsimp only
    rw [if_neg hsa]
    exact ih _ h

/-- `check_acl` gives the flag of the last item with the address, and a list accepted at startup is not
malformed for any client. -/
theorem checkAcl_lastMatch :
    (∀ (items : List AclItem) (sa : Usa), (∀ item ∈ items, item.subnet.Valid useIpv6 mgInetPton) →
      checkAcl useIpv6 mgInetPton (some (aclText items)) sa =
        if allowedBy mgInetPton items sa then 1 else 0) ∧
      (∀ sa, checkAcl useIpv6 mgInetPton none sa = 1) ∧
      ∀ (list : Option (List Byte)) (sa : Usa), setAclOption useIpv6 mgInetPton list = true →
        checkAcl useIpv6 mgInetPton list sa ≠ -1 := by
  refine ⟨fun items sa hvalid => ?_, fun _ => rfl, fun list sa h => ?_⟩
  · exact checkAclLoop_items useIpv6 mgInetPton items sa MINUS hvalid
  · cases list with
    | none =>
      have hone : (1 : Int) ≠ -1 := by decide
      exact hone
    | some list =>
      rw [setAclOption, decide_eq_true_eq] at h
      exact checkAclLoop_startup useIpv6 mgInetPton sa list MINUS MINUS h

end Acl

/-- `mg_inet_pton` on the text of one address. -/
def ptonFe80 (text : List Byte) : Option (Octets 16) :=
  if text = ascii "fe80::" then some (fun i => if i = 0 then 0xfe#8 else if i = 1 then 0x80#8 else 0#8)
  else none

def localItems : List AclItem :=
  [⟨false, .v4 (fun _ => 0#8) (some 0)⟩, ⟨true, .v4 (fun i => if i = 0 then 10#8 else 0#8) (some 8)⟩,
    ⟨true, .v6 (ascii "fe80::") true (some 10)⟩]

theorem checkAcl_lastMatch_local :
    aclText localItems = ascii "-0.0.0.0/0,+10.0.0.0/8,+[fe80::]/10" ∧
      checkAcl true ptonFe80 (some (aclText localItems)) (.inet (fun _ => 10#8)) = 1 ∧
      checkAcl true ptonFe80 (some (aclText localItems)) (.inet (fun _ => 11#8)) = 0 ∧
      checkAcl true ptonFe80 (some (aclText localItems)) .other ≠ -1 := by
  obtain ⟨hitems, _, haccepted⟩ := checkAcl_lastMatch true ptonFe80
  have hvalid : ∀ item ∈ localItems, item.subnet.Valid true ptonFe80 := by
    simp only [localItems, List.forall_mem_cons, List.not_mem_nil, false_imp_iff, implies_true,
      Subnet.Valid, true_and, and_true]
    decide +kernel
  refine ⟨by decide +kernel, ?_, ?_, haccepted _ _ ?_⟩
  · rw [hitems _ _ hvalid]
    decide +kernel
  · rw [hitems _ _ hvalid]
    decide +kernel
  · rw [setAclOption, hitems _ _ hvalid]
    decide +kernel

end CivetWeb
