import CivetWeb.Form.UrlCodec

namespace CivetWeb

/-- `url_decode_in_place` of the C string at `buf`. -/
def urlDecodeInPlaceAt (mem : List Byte) (buf : Nat) : List Byte :=
  let len := toInt32 ((cstr (mem.drop buf)).length % 2 ^ 32)
  (mgUrlDecodeTo true mem buf len buf (len + 1)).2

/-- The memory holds the complete decoded string in place of `s`, or it is as it was. -/
def DecodedOrKept (mem : List Byte) (buf : Nat) (s after : List Byte) : Prop :=
  after = mem ∨
    ∃ d, mgUrlDecode s (s.length + 1) true = some d ∧ after = Memory.store mem buf (d ++ [NUL])

/-- What a decoder can take of a string: all of it, or what stands in front of a byte up to the space. -/
def decodableFront (s : List Byte) : List Byte := s.takeWhile (SP < ·)

/-- A text that is written over itself unchanged: it has no `+`, and its escapes spell its own beginning. -/
def KeepsItself (front : List Byte) : Prop := PLUS ∉ front ∧ percentDecode front <+: front

/-- The strings that are decoded as a whole or not at all. -/
def DecodesWhole (s : List Byte) : Prop :=
  if decodableFront s = s then s.length < 2 ^ 31
  else ((decodableFront s).length : Int) < toInt32 (s.length % 2 ^ 32) ∧ KeepsItself (decodableFront s)

instance (front : List Byte) : Decidable (KeepsItself front) :=
  inferInstanceAs (Decidable (PLUS ∉ front ∧ percentDecode front <+: front))

instance (s : List Byte) : Decidable (DecodesWhole s) :=
  inferInstanceAs (Decidable (if decodableFront s = s then s.length < 2 ^ 31
    else ((decodableFront s).length : Int) < toInt32 (s.length % 2 ^ 32) ∧ KeepsItself (decodableFront s)))

/-! ### The decoder up to a byte that it refuses -/

theorem decodeByte_refused : ∀ c, c ≤ SP → decodeByte true c = none ∧ c ≠ PERCENT ∧ isxdigit c = false :=
  byte_all _ (by decide +kernel)

/-- The escape at the head of a text stands in front of what the decoder refuses. -/
theorem escape_front {c : Byte} {front rest : List Byte} (hc : c ≤ SP) {a b : Byte} {t : List Byte}
    (hsrc : front ++ c :: rest = a :: b :: t) (ha : isxdigit a = true) (hb : isxdigit b = true) :
    ∃ front', front = a :: b :: front' ∧ t = front' ++ c :: rest := by
  have hno := (decodeByte_refused c hc).2.2
  match front with
  | [] =>
    rw [(List.cons.inj hsrc).1, ha] at hno
    exact absurd hno nofun
  | [_] =>
    rw [(List.cons.inj (List.cons.inj hsrc).2).1, hb] at hno
    exact absurd hno nofun
  | x :: y :: front' =>
    obtain ⟨hx, hy⟩ := List.cons.inj hsrc
    obtain ⟨hy, ht⟩ := List.cons.inj hy
    exact ⟨front', by rw [hx, hy], ht.symm⟩

/-- The decoder stops at a byte that it refuses, behind the decoded text in front of it. -/
theorem urlDecodeStored_front (room : Nat) (front : List Byte) (c : Byte) (rest : List Byte)
    (hfront : ∀ x ∈ front, SP < x) (hc : c ≤ SP) (hroom : (front ++ c :: rest).length ≤ room) :
    urlDecodeLoop true room (front ++ c :: rest) = none ∧
      (urlDecodeStored true room (front ++ c :: rest)).length ≤ front.length ∧
      (PLUS ∉ front → urlDecodeStored true room (front ++ c :: rest) = percentDecode front) ∧
      (PLUS ∈ front → SP ∈ urlDecodeStored true room (front ++ c :: rest)) := by
  obtain ⟨hrefused, hpercent, -⟩ := decodeByte_refused c hc
  induction room generalizing front with
  | zero => simp at hroom
  | succ room ih =>
    cases front with
    | nil =>
      have hesc : ¬ (c = PERCENT ∧ ∃ a b t, rest = a :: b :: t ∧ isxdigit a ∧ isxdigit b) :=
        fun h => hpercent h.1
      rw [List.nil_append, urlDecodeLoop_copy true room c rest hesc, hrefused,
        urlDecodeStored_invalid true room c rest hesc hrefused]
      exact ⟨rfl, Nat.le_refl 0, fun _ => rfl, fun h => absurd h List.not_mem_nil⟩
    | cons x front =>
      have hx := decodeByte_form x (hfront x List.mem_cons_self)
      rw [List.cons_append] at hroom ⊢
      by_cases hesc : x = PERCENT ∧ ∃ a b t, front ++ c :: rest = a :: b :: t ∧ isxdigit a ∧ isxdigit b
      · obtain ⟨rfl, a, b, t, hsrc, ha, hb⟩ := hesc
        obtain ⟨front', rfl, rfl⟩ := escape_front hc hsrc ha hb
        have habove : ∀ y ∈ front', SP < y := fun y hy => hfront y (by simp [hy])
        obtain ⟨hloop, hlen, hdecoded, hplus⟩ := ih front' habove (by simp at hroom ⊢; omega)
        have hplain : ∀ d, isxdigit d = true → PLUS ≠ d := by
          rintro d hd rfl
          exact absurd hd (by decide)
        have hmem : PLUS ∈ PERCENT :: a :: b :: front' ↔ PLUS ∈ front' := by
          have hp : PLUS ≠ PERCENT := by decide
          simp [hplain a ha, hplain b hb, hp]
        rw [hsrc, urlDecodeLoop, if_pos ⟨rfl, ha, hb⟩, urlDecodeStored_escape true room a b _ ha hb, hloop, hmem,
          percentDecode_escape a b front' ha hb]
        refine ⟨rfl, by simp; omega, fun h => by rw [hdecoded h], fun h => ?_⟩
        exact List.mem_cons_of_mem _ (hplus h)
      · have habove : ∀ y ∈ front, SP < y := fun y hy => hfront y (List.mem_cons_of_mem x hy)
        obtain ⟨hloop, hlen, hdecoded, hplus⟩ := ih front habove (by simpa using hroom)
        rw [urlDecodeLoop_copy true room x _ hesc, urlDecodeStored_copy true room x _ _ hesc hx, hx,
          Option.bind_some, hloop]
        refine ⟨rfl, by simpa using hlen, fun h => ?_, fun h => ?_⟩
        · rw [List.mem_cons, not_or] at h
          rw [if_neg (Ne.symm h.1), hdecoded h.2, percentDecode_copy x front]
          rintro ⟨a, b, t, heq, ha, hb⟩
          obtain ⟨hp, rfl⟩ := List.cons.inj heq
          exact hesc ⟨hp, a, b, t ++ c :: rest, rfl, ha, hb⟩
        · rcases List.mem_cons.mp h with rfl | h
          · rw [if_pos rfl]
            exact List.mem_cons_self
          · exact List.mem_cons_of_mem _ (hplus h)

/-- What the decoder has written is what was there exactly if the text in front keeps itself. -/
theorem urlDecodeStored_prefix_iff (room : Nat) (front : List Byte) (c : Byte) (rest tail : List Byte)
    (hfront : ∀ x ∈ front, SP < x) (hc : c ≤ SP) (hroom : (front ++ c :: rest).length ≤ room) :
    urlDecodeStored true room (front ++ c :: rest) <+: front ++ tail ↔ KeepsItself front := by
  obtain ⟨-, hlen, hdecoded, hplus⟩ := urlDecodeStored_front room front c rest hfront hc hroom
  constructor
  · intro h
    have hpre := List.prefix_of_prefix_length_le h (List.prefix_append front tail) hlen
    have hnot : PLUS ∉ front := fun hmem => absurd (hfront SP (hpre.subset (hplus hmem))) (by decide)
    rw [hdecoded hnot] at hpre
    exact ⟨hnot, hpre⟩
  · rintro ⟨hnot, hpre⟩
    rw [hdecoded hnot]
    exact hpre.trans (List.prefix_append front tail)

/-! ### The length of a decoded text -/

/-- A text that is continued by enough bytes decodes to more, also if it is cut in an escape. -/
theorem urlDecodeLoop_append_length (room room' : Nat) (u v d e : List Byte) (hv : 5 ≤ v.length)
    (hd : urlDecodeLoop true room u = some d) (he : urlDecodeLoop true room' (u ++ v) = some e) :
    d.length < e.length := by
  induction room generalizing room' u d e with
  | zero =>
    cases u with
    | nil =>
      obtain rfl := Option.some.inj hd
      obtain ⟨-, hge, -⟩ := urlDecodeLoop_lengths room' v e he
      exact Nat.pos_of_ne_zero (by omega)
    | cons c u => simp [urlDecodeLoop] at hd
  | succ room ih =>
    cases u with
    | nil =>
      obtain rfl := Option.some.inj hd
      obtain ⟨-, hge, -⟩ := urlDecodeLoop_lengths room' v e he
      exact Nat.pos_of_ne_zero (by omega)
    | cons c u =>
      cases room' with
      | zero => simp [urlDecodeLoop] at he
      | succ room' =>
        rw [List.cons_append] at he
        by_cases hesc : c = PERCENT ∧ ∃ a b rest, u = a :: b :: rest ∧ isxdigit a ∧ isxdigit b
        · obtain ⟨rfl, a, b, rest, rfl, ha, hb⟩ := hesc
          rw [urlDecodeLoop, if_pos ⟨rfl, ha, hb⟩] at hd
          rw [List.cons_append, List.cons_append, urlDecodeLoop, if_pos ⟨rfl, ha, hb⟩] at he
          obtain ⟨d', hd', rfl⟩ := Option.map_eq_some_iff.mp hd
          obtain ⟨e', he', rfl⟩ := Option.map_eq_some_iff.mp he
          exact Nat.succ_lt_succ (ih room' rest d' e' hd' he')
        · rw [urlDecodeLoop_copy true room c u hesc] at hd
          obtain ⟨x, -, hx⟩ := Option.bind_eq_some_iff.mp hd
          obtain ⟨d', hd', rfl⟩ := Option.map_eq_some_iff.mp hx
          by_cases hnext : c = PERCENT ∧ ∃ a b rest, u ++ v = a :: b :: rest ∧ isxdigit a ∧ isxdigit b
          · -- the escape reaches from the text into what continues it
            obtain ⟨rfl, a, b, rest, hsrc, ha, hb⟩ := hnext
            rw [hsrc, urlDecodeLoop, if_pos ⟨rfl, ha, hb⟩] at he
            obtain ⟨e', he', rfl⟩ := Option.map_eq_some_iff.mp he
            have hshort : u.length ≤ 1 := by
              by_contra hlong
              cases u with
              | nil => simp at hlong
              | cons y u =>
                cases u with
                | nil => simp at hlong
                | cons z u =>
                  obtain ⟨rfl, h⟩ := List.cons.inj hsrc
                  obtain ⟨rfl, -⟩ := List.cons.inj h
                  exact hesc ⟨rfl, y, z, u, rfl, ha, hb⟩
            have hlen : u.length + v.length = rest.length + 2 := by
              rw [← List.length_append, hsrc]
              rfl
            obtain ⟨hle, -, -⟩ := urlDecodeLoop_lengths room u d' hd'
            obtain ⟨-, hge, -⟩ := urlDecodeLoop_lengths room' rest e' he'
            rw [List.length_cons, List.length_cons]
            omega
          · rw [urlDecodeLoop_copy true room' c (u ++ v) hnext] at he
            obtain ⟨y, -, hy⟩ := Option.bind_eq_some_iff.mp he
            obtain ⟨e', he', rfl⟩ := Option.map_eq_some_iff.mp hy
            exact Nat.succ_lt_succ (ih room' u d' e' hd' he')

/-! ### The string in memory -/

section
variable {mem s tail : List Byte} {buf : Nat} (hs : NUL ∉ s) (hmem : mem.drop buf = s ++ NUL :: tail)
include hs hmem

omit hs in
theorem fits_inPlace : buf + s.length + 1 ≤ mem.length := by
  have hlen := congrArg List.length hmem
  rw [List.length_drop, List.length_append, List.length_cons] at hlen
  omega

theorem getElem?_inPlace {i : Nat} (hi : i ≤ s.length) : mem[buf + i]? = some NUL ↔ i = s.length := by
  rw [← List.getElem?_drop, hmem]
  constructor
  · intro h
    by_contra hne
    have hlt : i < s.length := by omega
    rw [List.getElem?_append_left hlt] at h
    exact hs (List.mem_of_getElem? h)
  · rintro rfl
    rw [List.getElem?_append_right (Nat.le_refl _), Nat.sub_self]
    rfl

/-- A string with a length that an `int` does not count is cut off. -/
theorem urlDecodeInPlaceAt_negative (hlen : toInt32 (s.length % 2 ^ 32) < 0) :
    urlDecodeInPlaceAt mem buf = Memory.store mem buf [NUL] := by
  unfold urlDecodeInPlaceAt
  rw [hmem, cstr_append_nul hs]
  generalize toInt32 (s.length % 2 ^ 32) = len at hlen
  dsimp only
  rw [mgUrlDecodeTo, urlDecodeAt, if_neg (fun h => absurd h.1 (by omega))]
  rfl

/-- The first bytes of the string are decoded, as many as its length is as an `int`. -/
theorem urlDecodeInPlaceAt_eq {k : Nat} (hlen : toInt32 (s.length % 2 ^ 32) = k) (hk : k ≤ s.length) :
    urlDecodeInPlaceAt mem buf = Memory.store mem buf (urlDecodeStored true k (s.take k)) := by
  have hcount : (s.take k).length = k := by
    rw [List.length_take, Nat.min_eq_left hk]
  have htext : s.take k <+: mem.drop buf := by
    rw [hmem]
    exact (List.take_prefix k s).trans (List.prefix_append s _)
  have h := mgUrlDecodeTo_eq true mem (s.take k) buf buf (k + 1) htext (Nat.le_add_left 1 k) (.inl (Nat.le_refl buf))
  unfold urlDecodeInPlaceAt
  rw [hmem, cstr_append_nul hs, hlen]
  rw [hcount] at h
  exact congrArg Prod.snd h

/-- A decoded text that ends too early is neither the string nor all of its decoded text. -/
theorem not_decodedOrKept {d : List Byte} (hd : d.length < s.length)
    (hne : ∀ e, mgUrlDecode s (s.length + 1) true = some e → d.length ≠ e.length) :
    ¬ DecodedOrKept mem buf s (Memory.store mem buf (d ++ [NUL])) := by
  have hfits := fits_inPlace hmem
  have hnul : (Memory.store mem buf (d ++ [NUL]))[buf + d.length]? = some NUL := by
    rw [Memory.getElem?_store_inside mem buf (d ++ [NUL]) d.length (by simp) (by simp; omega)]
    simp
  rintro (h | ⟨e, he, h⟩)
  · rw [h] at hnul
    exact absurd ((getElem?_inPlace hs hmem hd.le).mp hnul) (by omega)
  · obtain ⟨hle, -, hplain⟩ := urlDecodeLoop_lengths _ s e he
    have hend : (Memory.store mem buf (e ++ [NUL]))[buf + e.length]? = some NUL := by
      rw [Memory.getElem?_store_inside mem buf (e ++ [NUL]) e.length (by simp) (by simp; omega)]
      simp
    rcases Nat.lt_trichotomy d.length e.length with hlt | heq | hlt
    · -- behind the early end the string still has its own bytes
      rw [← h, Memory.getElem?_store_outside mem buf (d ++ [NUL]) (buf + e.length) (by simp; omega)] at hend
      have hall := hplain ((getElem?_inPlace hs hmem hle).mp hend)
      rw [h, Memory.getElem?_store_inside mem buf (e ++ [NUL]) d.length (by simp; omega) (by simp; omega),
        List.getElem?_append_left hlt] at hnul
      exact hall (List.mem_of_getElem? hnul)
    · exact hne e he heq
    · rw [h, Memory.getElem?_store_outside mem buf (e ++ [NUL]) (buf + d.length) (by simp; omega)] at hnul
      exact absurd ((getElem?_inPlace hs hmem hd.le).mp hnul) (by omega)

/-- A string that is longer than its length as an `int` is cut off where the decoder finds its end. -/
theorem not_decodedOrKept_cut {k : Nat} (hlen : toInt32 (s.length % 2 ^ 32) = k) (hk : k + 5 ≤ s.length)
    (habove : ∀ x ∈ s.take k, SP < x) : ¬ DecodedOrKept mem buf s (urlDecodeInPlaceAt mem buf) := by
  have hcount : (s.take k).length = k := by
    rw [List.length_take, Nat.min_eq_left (by omega)]
  obtain ⟨d, hd⟩ := Option.isSome_iff_exists.mp ((urlDecodeLoop_isSome k (s.take k) hcount.le).mpr habove)
  obtain ⟨hle, -, -⟩ := urlDecodeLoop_lengths k (s.take k) d hd
  rw [urlDecodeInPlaceAt_eq hs hmem hlen (by omega), urlDecodeStored_of_some true k (s.take k) d hd]
  apply not_decodedOrKept hs hmem (by omega)
  intro e he
  have hdrop : 5 ≤ (s.drop k).length := by
    rw [List.length_drop]
    omega
  exact (urlDecodeLoop_append_length k _ (s.take k) (s.drop k) d e hdrop hd
    (by rwa [List.take_append_drop])).ne

omit hs hmem in
theorem decodableFront_above (s : List Byte) : ∀ x ∈ decodableFront s, SP < x := by
  intro x hx
  have h := List.mem_takeWhile_imp hx
  exact of_decide_eq_true h

omit hs hmem in
theorem decodableFront_split (h : decodableFront s ≠ s) : ∃ c rest, s = decodableFront s ++ c :: rest ∧ c ≤ SP := by
  have hsplit := List.takeWhile_append_dropWhile (p := (decide <| SP < ·)) (l := s)
  cases hrest : s.dropWhile (SP < ·) with
  | nil =>
    rw [hrest, List.append_nil] at hsplit
    exact absurd hsplit h
  | cons c rest =>
    have hne : s.dropWhile (SP < ·) ≠ [] := by
      rw [hrest]
      exact List.cons_ne_nil c rest
    have hc := List.head_dropWhile_not (SP < ·) hne
    simp only [hrest, List.head_cons, decide_eq_false_iff_not, UInt8.not_lt] at hc
    exact ⟨c, rest, by rw [decodableFront, ← hrest, hsplit], hc⟩

omit hs hmem in
theorem mgUrlDecode_refused {front rest : List Byte} {c : Byte} (hc : c ≤ SP) (heq : s = front ++ c :: rest) :
    mgUrlDecode s (s.length + 1) true = none := by
  have hiff := mgUrlDecode_isSome s (s.length + 1) (Nat.lt_succ_self _)
  rw [Option.eq_none_iff_forall_ne_some]
  intro d hd
  have habove := hiff.mp (by rw [hd]; rfl) c (by rw [heq]; simp)
  exact absurd habove (UInt8.not_lt.mpr hc)

/-- In-place decoding is all or nothing exactly for the strings that decode as a whole. -/
theorem decodedOrKept_iff : DecodedOrKept mem buf s (urlDecodeInPlaceAt mem buf) ↔ DecodesWhole s := by
  have hfits := fits_inPlace hmem
  have hmod : s.length % 2 ^ 32 < 2 ^ 32 := Nat.mod_lt _ (by decide)
  have habove := decodableFront_above s
  obtain ⟨len, hlen⟩ : ∃ len, len = toInt32 (s.length % 2 ^ 32) := ⟨_, rfl⟩
  have hint := hlen
  rw [toInt32] at hint
  unfold DecodesWhole
  rw [← hlen]
  by_cases hneg : len < 0
  · -- the length is no `int`
    have hlong : ¬ s.length % 2 ^ 32 < 2 ^ 31 := fun h => by rw [if_pos h] at hint; omega
    have hle := Nat.mod_le s.length (2 ^ 32)
    rw [urlDecodeInPlaceAt_negative hs hmem (hlen ▸ hneg)]
    have hnot := not_decodedOrKept hs hmem (d := []) (by rw [List.length_nil]; omega) (fun e he => by
      obtain ⟨-, hge, -⟩ := urlDecodeLoop_lengths _ s e he
      rw [List.length_nil]
      omega)
    refine iff_of_false hnot fun h => ?_
    split at h
    · omega
    · omega
  · have hshort : s.length % 2 ^ 32 < 2 ^ 31 := by
      by_contra h
      rw [if_neg h] at hint
      omega
    rw [if_pos hshort] at hint
    obtain ⟨k, hk⟩ : ∃ k, k = s.length % 2 ^ 32 := ⟨_, rfl⟩
    rw [← hk] at hint hshort
    have hlenk : toInt32 (s.length % 2 ^ 32) = k := hlen.symm.trans hint
    have hkle : k ≤ s.length := hk ▸ Nat.mod_le _ _
    rw [hint]
    by_cases hall : decodableFront s = s
    · rw [if_pos hall]
      rw [hall] at habove
      by_cases hwhole : s.length < 2 ^ 31
      · have hks : k = s.length := by omega
        obtain ⟨d, hd⟩ := Option.isSome_iff_exists.mp ((urlDecodeLoop_isSome s.length s (Nat.le_refl _)).mpr habove)
        refine iff_of_true (.inr ⟨d, hd, ?_⟩) hwhole
        rw [urlDecodeInPlaceAt_eq hs hmem hlenk hkle, hks, List.take_length, urlDecodeStored_of_some true _ s d hd]
      · refine iff_of_false (not_decodedOrKept_cut hs hmem hlenk (by omega) ?_) hwhole
        exact fun x hx => habove x (List.mem_of_mem_take hx)
    · rw [if_neg hall]
      obtain ⟨c, rest, hsplit, hc⟩ := decodableFront_split hall
      have hlens := congrArg List.length hsplit
      rw [List.length_append, List.length_cons] at hlens
      by_cases hin : (decodableFront s).length < k
      · -- the decoder reaches the byte that it refuses
        have htake : s.take k = decodableFront s ++ c :: rest.take (k - (decodableFront s).length - 1) := by
          obtain ⟨n, hn⟩ : ∃ n, k - (decodableFront s).length = n + 1 := ⟨k - (decodableFront s).length - 1, by omega⟩
          conv_lhs => rw [hsplit]
          rw [List.take_append, List.take_of_length_le hin.le, hn]
          rfl
        have hcount : (s.take k).length ≤ k := List.length_take_le k s
        have hkept := urlDecodeStored_prefix_iff k (decodableFront s) c (rest.take (k - (decodableFront s).length - 1))
          (c :: rest ++ NUL :: tail) habove hc (htake ▸ hcount)
        have hfit : (urlDecodeStored true k (s.take k)).length ≤ s.length := by
          have := (urlDecodeStored_front k (decodableFront s) c (rest.take (k - (decodableFront s).length - 1))
            habove hc (htake ▸ hcount)).2.1
          rw [← htake] at this
          omega
        have hself := Memory.store_eq_self_iff mem buf (urlDecodeStored true k (s.take k)) (by omega)
        rw [← htake, ← List.append_assoc, ← hsplit, ← hmem] at hkept
        rw [urlDecodeInPlaceAt_eq hs hmem hlenk hkle]
        constructor
        · rintro (h | ⟨d, hd, -⟩)
          · exact ⟨by omega, hkept.mp (hself.mp h)⟩
          · rw [mgUrlDecode_refused hc hsplit] at hd
            cases hd
        · exact fun h => .inl (hself.mpr (hkept.mpr h.2))
      · -- it does not: the string is cut off in front of it
        refine iff_of_false (not_decodedOrKept_cut hs hmem hlenk (by omega) fun x hx => ?_) fun h => by omega
        rw [hsplit, List.take_append_of_le_length (by omega)] at hx
        exact habove x (List.mem_of_mem_take hx)

end

/-! ### The fields of a form -/

/-- A field is the complete decoded text of `s`, or `s` itself. -/
def FieldDecodedOrKept (s field : List Byte) : Prop :=
  field = s ∨ ∃ d, mgUrlDecode s (s.length + 1) true = some d ∧ field = cstr d

theorem decodesWhole_short {s : List Byte} (hlen : s.length < 2 ^ 31) :
    DecodesWhole s ↔ decodableFront s = s ∨ KeepsItself (decodableFront s) := by
  unfold DecodesWhole
  by_cases hall : decodableFront s = s
  · rw [if_pos hall]
    exact iff_of_true hlen (.inl hall)
  · have hlt : (decodableFront s).length < s.length := by
      obtain ⟨c, rest, hsplit, -⟩ := decodableFront_split hall
      have hlens := congrArg List.length hsplit
      rw [List.length_append, List.length_cons] at hlens
      omega
    have hint : toInt32 (s.length % 2 ^ 32) = s.length := by
      rw [Nat.mod_eq_of_lt (by omega), toInt32, if_pos hlen]
    rw [if_neg hall, hint]
    exact ⟨fun h => .inr h.2, fun h => ⟨by omega, h.resolve_left hall⟩⟩

/-- Where the decoder refuses a byte, it has written what stands there without an end. -/
theorem urlDecodeStored_refused {s : List Byte} (hall : decodableFront s ≠ s) :
    urlDecodeStored true s.length s = urlDecodeWritten true s.length s ∧
      (urlDecodeStored true s.length s).length ≤ s.length ∧
      mgUrlDecode s (s.length + 1) true = none ∧
      (urlDecodeStored true s.length s <+: s ↔ KeepsItself (decodableFront s)) := by
  obtain ⟨c, rest, hsplit, hc⟩ := decodableFront_split hall
  have habove := decodableFront_above s
  have hlens := congrArg List.length hsplit
  rw [List.length_append, List.length_cons] at hlens
  have hroom : (decodableFront s ++ c :: rest).length ≤ s.length := by rw [← hsplit]
  have hfront := urlDecodeStored_front s.length (decodableFront s) c rest habove hc hroom
  have hkept := urlDecodeStored_prefix_iff s.length (decodableFront s) c rest (c :: rest) habove hc hroom
  rw [← hsplit] at hfront hkept
  refine ⟨?_, by omega, mgUrlDecode_refused hc hsplit, hkept⟩
  have hlen := hfront.2.1
  unfold urlDecodeStored at hlen ⊢
  dsimp only at hlen ⊢
  by_cases hstop : urlDecodeLoop true s.length s = none ∧ (urlDecodeWritten true s.length s).length < s.length
  · rw [if_pos hstop]
  · rw [if_neg hstop, List.length_append, List.length_singleton] at hlen
    exact absurd ⟨hfront.1, by omega⟩ hstop

/-- `url_decode_in_place` in memory leaves the text that `urlDecodeInPlace` makes of a string. -/
theorem urlDecodeInPlaceAt_text {mem s tail : List Byte} {buf : Nat} (hs : NUL ∉ s)
    (hmem : mem.drop buf = s ++ NUL :: tail) :
    cstr ((urlDecodeInPlaceAt mem buf).drop buf) = urlDecodeInPlace s := by
  have hfits := fits_inPlace hmem
  have hread (xs : List Byte) (hxs : buf + xs.length ≤ mem.length) :
      (Memory.store mem buf xs).drop buf = xs ++ mem.drop (buf + xs.length) := by
    obtain ⟨t, ht⟩ := Memory.prefix_drop_store mem buf xs hxs
    have hrest := Memory.drop_store mem buf (buf + xs.length) xs (Nat.le_refl _)
    rw [← List.drop_drop, ← ht, List.drop_left] at hrest
    rw [← ht, hrest]
  obtain ⟨k, hk⟩ : ∃ k, k = intLength s.length := ⟨_, rfl⟩
  have hkle : k ≤ s.length := hk ▸ intLength_le s.length
  rw [urlDecodeInPlace_eq, ← hk]
  by_cases hneg : toInt32 (s.length % 2 ^ 32) < 0
  · have hzero : k = 0 := by
      rw [hk, intLength, sizeToInt]
      omega
    rw [urlDecodeInPlaceAt_negative hs hmem hneg, hread _ (by simp; omega), hzero]
    rfl
  have hint : toInt32 (s.length % 2 ^ 32) = k := by
    rw [hk, intLength, sizeToInt]
    omega
  obtain ⟨text, htext⟩ : ∃ text, text = s.take k := ⟨_, rfl⟩
  have hlen : text.length = k := by
    rw [htext, List.length_take, Nat.min_eq_left hkle]
  rw [urlDecodeInPlaceAt_eq hs hmem hint hkle, ← htext, ← hlen]
  dsimp only
  by_cases hall : decodableFront text = text
  · have habove := decodableFront_above text
    rw [hall] at habove
    obtain ⟨d, hd⟩ := Option.isSome_iff_exists.mp
      ((urlDecodeLoop_isSome text.length text (Nat.le_refl _)).mpr habove)
    have hle := (urlDecodeLoop_lengths text.length text d hd).1
    have hdec : mgUrlDecode text (text.length + 1) true = some d := hd
    rw [urlDecodeStored_of_some true text.length text d hd, hread _ (by simp; omega), hdec, List.append_assoc]
    exact cstr_cut d _
  · obtain ⟨hwritten, hle, hrefused, -⟩ := urlDecodeStored_refused hall
    rw [hwritten] at hle ⊢
    rw [hrefused, hread _ (by omega), ← List.drop_drop, hmem, List.drop_append_of_le_length (by omega),
      ← List.append_assoc]
    exact cstr_cut _ _

theorem urlDecodeInPlace_short {s : List Byte} (hlen : s.length < 2 ^ 31) :
    urlDecodeInPlace s =
      match mgUrlDecode s (s.length + 1) true with
      | some d => cstr d
      | none => cstr (urlDecodeWritten true s.length s ++ s.drop (urlDecodeWritten true s.length s).length) := by
  have h := urlDecodeInPlace_eq s
  rw [intLength_of_lt hlen, List.take_length] at h
  exact h

theorem fieldDecodedOrKept_iff {s : List Byte} (hs : NUL ∉ s) (hlen : s.length < 2 ^ 31) :
    FieldDecodedOrKept s (urlDecodeInPlace s) ↔ DecodesWhole s := by
  rw [decodesWhole_short hlen, urlDecodeInPlace_short hlen]
  by_cases hall : decodableFront s = s
  · have habove := decodableFront_above s
    rw [hall] at habove
    obtain ⟨d, hd⟩ := Option.isSome_iff_exists.mp ((urlDecodeLoop_isSome s.length s (Nat.le_refl _)).mpr habove)
    have hdec : mgUrlDecode s (s.length + 1) true = some d := hd
    rw [hdec]
    exact iff_of_true (.inr ⟨d, hdec, rfl⟩) (.inl hall)
  · obtain ⟨hwritten, hle, hrefused, hkept⟩ := urlDecodeStored_refused hall
    rw [hwritten] at hle hkept
    rw [hrefused]
    dsimp only
    rw [or_iff_right hall, ← hkept]
    generalize urlDecodeWritten true s.length s = w at hle
    constructor
    · rintro (h | ⟨d, hd, -⟩)
      · -- the text is as long as it was, so it has no NUL
        have hpre := prefix_cstr (w ++ s.drop w.length)
        rw [h] at hpre
        have heq := List.IsPrefix.eq_of_length hpre (by rw [List.length_append, List.length_drop]; omega)
        exact ⟨s.drop w.length, heq.symm⟩
      · rw [hrefused] at hd
        exact absurd hd nofun
    · rintro ⟨t, rfl⟩
      rw [List.drop_left]
      exact .inl (cstr_of_no_nul _ hs)

/-- The fields of a form are parts of its text. -/
theorem splitFormLoop_sublist (slots : Nat) (data : List Byte) :
    ∀ f ∈ splitFormLoop slots data, f.1.Sublist data ∧ ∀ v ∈ f.2, v.Sublist data := by
  induction slots generalizing data with
  | zero => exact fun f hf => absurd hf List.not_mem_nil
  | succ slots ih =>
    intro f hf
    rw [splitFormLoop] at hf
    dsimp only at hf
    obtain ⟨text, htext⟩ : ∃ text, text = data.dropWhile isblank := ⟨_, rfl⟩
    have hsub : text.Sublist data := htext ▸ List.dropWhile_sublist _
    rw [← htext] at hf
    split at hf
    case isTrue => exact absurd hf List.not_mem_nil
    case isFalse =>
      have hname : (text.takeWhile fun c => c != AMPERSAND && c != EQUALS).Sublist data :=
        (List.takeWhile_sublist _).trans hsub
      obtain ⟨b, hb⟩ : ∃ b, b = text.dropWhile fun c => c != AMPERSAND && c != EQUALS := ⟨_, rfl⟩
      have hrest : b.Sublist data := hb ▸ (List.dropWhile_sublist _).trans hsub
      rw [← hb] at hf
      have hnext (t : List Byte) (ht : t.Sublist data) (hmem : f ∈ splitFormLoop slots t) :
          f.1.Sublist data ∧ ∀ v ∈ f.2, v.Sublist data := by
        obtain ⟨h1, h2⟩ := ih t f hmem
        exact ⟨h1.trans ht, fun v hv => (h2 v hv).trans ht⟩
      split at hf
      case isTrue =>
        have htail : b.tail.Sublist data := (List.tail_sublist b).trans hrest
        have hvalue : (b.tail.takeWhile (· != AMPERSAND)).Sublist data := (List.takeWhile_sublist _).trans htail
        have hsome : ∀ v ∈ some (b.tail.takeWhile (· != AMPERSAND)), v.Sublist data := by
          intro v hv
          rw [← Option.some.inj hv]
          exact hvalue
        split at hf
        case h_1 =>
          rw [List.mem_singleton] at hf
          rw [hf]
          exact ⟨hname, hsome⟩
        case h_2 x rest heq =>
          have hbehind : rest.Sublist data := by
            have hcons : (x :: rest).Sublist data := heq ▸ (List.dropWhile_sublist _).trans htail
            exact (List.sublist_cons_self x rest).trans hcons
          rcases List.mem_cons.mp hf with rfl | hf
          · exact ⟨hname, hsome⟩
          · exact hnext rest hbehind hf
      case isFalse =>
        have hnone : ∀ v ∈ (none : Option (List Byte)), v.Sublist data := fun v hv => absurd hv nofun
        split at hf
        case h_1 =>
          rw [List.mem_singleton] at hf
          rw [hf]
          exact ⟨hname, hnone⟩
        case h_2 x rest _ =>
          rcases List.mem_cons.mp hf with rfl | hf
          · exact ⟨hname, hnone⟩
          · exact hnext rest ((List.sublist_cons_self x rest).trans hrest) hf

/-- `url_decode_in_place` leaves the decoded string or the string as it was exactly where the whole string can
be decoded, or nothing changes in front of the byte that the decoder refuses, and so do the fields of
`mg_split_form_urlencoded`. -/
theorem urlDecodeInPlace_whole_iff (mem s tail : List Byte) (buf : Nat) (hs : NUL ∉ s)
    (hmem : mem.drop buf = s ++ NUL :: tail) (data : List Byte) (n : Nat) (hdata : NUL ∉ data)
    (hlen : data.length < 2 ^ 31) (hpos : 0 < n) (hn : n < 2 ^ 31) :
    (DecodedOrKept mem buf s (urlDecodeInPlaceAt mem buf) ↔ DecodesWhole s) ∧
      (mgSplitFormUrlencoded (some data) true n).2 =
          (splitFormLoop n data).map (fun f => (urlDecodeInPlace f.1, f.2.map urlDecodeInPlace)) ∧
        ∀ f ∈ splitFormLoop n data, (FieldDecodedOrKept f.1 (urlDecodeInPlace f.1) ↔ DecodesWhole f.1) ∧
          ∀ v ∈ f.2, (FieldDecodedOrKept v (urlDecodeInPlace v) ↔ DecodesWhole v) := by
  refine ⟨decodedOrKept_iff hs hmem, ?_, ?_⟩
  · unfold mgSplitFormUrlencoded
    dsimp only
    rw [if_neg (fun h => absurd h.1 nofun), if_neg]
    rintro (h | h | h)
    · exact absurd h nofun
    · omega
    · omega
  · have hpart (t : List Byte) (ht : t.Sublist data) :
        FieldDecodedOrKept t (urlDecodeInPlace t) ↔ DecodesWhole t :=
      fieldDecodedOrKept_iff (fun h => hdata (ht.subset h)) (by have := ht.length_le; omega)
    intro f hf
    obtain ⟨hname, hvalue⟩ := splitFormLoop_sublist n data f hf
    exact ⟨hpart f.1 hname, fun v hv => hpart v (hvalue v hv)⟩

/-- A blank leaves a text as it is, also behind an escaped percent sign. -/
theorem urlDecodeInPlace_whole_iff_blank :
    DecodedOrKept (ascii "%25 b" ++ [NUL]) 0 (ascii "%25 b") (urlDecodeInPlaceAt (ascii "%25 b" ++ [NUL]) 0) ∧
      FieldDecodedOrKept (ascii "a+b%20") (urlDecodeInPlace (ascii "a+b%20")) := by
  obtain ⟨hplace, -, hfields⟩ := urlDecodeInPlace_whole_iff (ascii "%25 b" ++ [NUL]) (ascii "%25 b") [] 0
    (by decide) rfl (ascii "x=a+b%20") 1 (by decide) (by decide) (by decide) (by decide)
  refine ⟨hplace.mpr (by decide +kernel), ?_⟩
  have hfield := hfields (ascii "x", some (ascii "a+b%20")) (by decide +kernel)
  exact (hfield.2 _ rfl).mpr (by decide +kernel)

/-- `%41 b` is left with its first character decoded and the rest of its escape behind it. -/
theorem urlDecodeInPlace_mixture :
    urlDecodeInPlaceAt (ascii "%41 b" ++ [NUL]) 0 = ascii "A41 b" ++ [NUL] ∧
      ¬ DecodedOrKept (ascii "%41 b" ++ [NUL]) 0 (ascii "%41 b") (urlDecodeInPlaceAt (ascii "%41 b" ++ [NUL]) 0) ∧
      (mgSplitFormUrlencoded (some (ascii "x=%41 b")) true 1).2 = [(ascii "x", some (ascii "A41 b"))] := by
  have hrefused : mgUrlDecode (ascii "%41 b") ((ascii "%41 b").length + 1) true = none := by decide +kernel
  have hvalue : urlDecodeInPlaceAt (ascii "%41 b" ++ [NUL]) 0 = ascii "A41 b" ++ [NUL] := by decide +kernel
  refine ⟨hvalue, ?_, by decide +kernel⟩
  rw [hvalue]
  rintro (h | ⟨d, hd, -⟩)
  · exact absurd h (by decide)
  · rw [hrefused] at hd
    exact absurd hd nofun

end CivetWeb
