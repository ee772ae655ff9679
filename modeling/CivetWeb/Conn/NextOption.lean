import CivetWeb.Conn.HeaderOptions
import CivetWeb.Conn.Write
import CivetWeb.Files.InterpretUri
import CivetWeb.Form.UrlEncoded

namespace CivetWeb

/-- A `vec`: where it begins, and its length. -/
structure Vec where
  ptr : List Byte
  len : Nat
  deriving DecidableEq, Repr

/-- The bytes of a vector, if its length does not go beyond the string. -/
def Vec.text? (v : Vec) : Option (List Byte) := if v.len ≤ v.ptr.length then some (v.ptr.take v.len) else none

/-- `memchr`: the place of the first `c` among the first `n` bytes. -/
def memchr (s : List Byte) (c : Byte) (n : Nat) : Option Nat :=
  if c ∈ s.take n then some ((s.take n).takeWhile (· != c)).length else none

/-- The loop of `next_option` over the blanks in front of `end`; the length is `end + 1`. -/
def trimEnd (ptr : List Byte) : Nat → Nat
  | 0 => 0
  | n + 1 => if isblank (ptr.getD n NUL) then trimEnd ptr n else n + 1

/-- The length of a value without the blanks at its end; `end` is an `int`, and the loop does not begin where that
is negative. -/
def trimmedLen (ptr : List Byte) (len : Nat) : Nat :=
  let stop : Int := toInt32 (len % 2 ^ 32) - 1
  if 0 ≤ stop then trimEnd ptr (stop.toNat + 1) else ((stop + 1) % 2 ^ 64).toNat

/-- `next_option`: `val`, `eq_val` where it is asked for and there is a `=`, and the rest of the list. -/
def nextOptionVec (eqVal : Bool) (list : List Byte) : Option (Vec × Option Vec × List Byte) :=
  if _h : list = [] then none
  else
    let ptr := list.dropWhile isblank
    let comma := (ptr.takeWhile (· != COMMA)).length
    let rest := (ptr.drop comma).tail
    let len := trimmedLen ptr comma
    if len = 0 then nextOptionVec eqVal rest
    else if eqVal then
      match memchr ptr EQUALS len with
      | some i => some (⟨ptr, i⟩, some ⟨ptr.drop (i + 1), len - (i + 1)⟩, rest)
      | none => some (⟨ptr, len⟩, none, rest)
    else some (⟨ptr, len⟩, none, rest)
termination_by list.length
decreasing_by
  have h1 := (List.dropWhile_suffix (l := list) isblank).length_le
  have h3 : 0 < list.length := List.length_pos_iff.mpr _h
  simp only [List.length_tail, List.length_drop]
  omega

theorem nextOptionVec_length (eqVal : Bool) {list rest : List Byte} {v : Vec} {e : Option Vec}
    (h : nextOptionVec eqVal list = some (v, e, rest)) : rest.length < list.length := by
  fun_induction nextOptionVec eqVal list with
  | case1 => cases h
  | case2 list hne ptr comma rest' len hlen ih =>
    have hptr := (List.dropWhile_suffix (l := list) isblank).length_le
    have hrest : rest'.length ≤ list.length := by
      simp only [rest', ptr, List.length_tail, List.length_drop]
      omega
    exact (ih h).trans_le hrest
  | _ list hne ptr comma rest' =>
    have hptr := (List.dropWhile_suffix (l := list) isblank).length_le
    have hpos : 0 < list.length := List.length_pos_iff.mpr hne
    have hrest : rest' = rest := (Prod.mk.inj (Prod.mk.inj (Option.some.inj h)).2).2
    rw [← hrest]
    simp only [rest', ptr, List.length_tail, List.length_drop]
    omega

/-- What `next_option` comes to when it is called until it returns `NULL`. -/
def optionVecs (eqVal : Bool) (list : List Byte) : List (Vec × Option Vec) :=
  match _h : nextOptionVec eqVal list with
  | none => []
  | some (v, e, rest) => (v, e) :: optionVecs eqVal rest
termination_by list.length
decreasing_by exact nextOptionVec_length eqVal _h

/-- The text of a value, and that of its `eq_val`. -/
def valueText (v : Vec × Option Vec) : Option (List Byte) × Option (Option (List Byte)) :=
  (v.1.text?, v.2.map Vec.text?)

def optionTexts (eqVal : Bool) (list : List Byte) : List (Option (List Byte) × Option (Option (List Byte))) :=
  (optionVecs eqVal list).map valueText

/-! ### The items of a list -/

/-- An item up to its first `=` and behind it, where that is asked for. -/
def itemText (eqVal : Bool) (item : List Byte) : Option (List Byte) × Option (Option (List Byte)) :=
  if eqVal ∧ EQUALS ∈ item then
    (some (item.takeWhile (· != EQUALS)), some (some (item.dropWhile (· != EQUALS)).tail))
  else (some item, none)

/-- The `int` that the length of an entry is converted to leaves all of the item; a size of 2^63 and more comes back
from a negative `int`. -/
def KeepsLength (entry : List Byte) : Prop :=
  let n := toInt32 ((entry.dropWhile isblank).length % 2 ^ 32)
  if 0 < n then ((trimBlanks entry).length : Int) ≤ n else ((trimBlanks entry).length : Int) = n % 2 ^ 64

instance (entry : List Byte) : Decidable (KeepsLength entry) := by
  unfold KeepsLength
  infer_instance

/-! ### One entry -/

theorem trimEnd_eq (s t : List Byte) (n : Nat) (hn : n ≤ s.length) :
    trimEnd (s ++ t) n = ((s.take n).rdropWhile isblank).length := by
  induction n with
  | zero => rfl
  | succ n ih =>
    have hget : (s ++ t).getD n NUL = s[n] := by
      rw [List.getD_eq_getElem?_getD, List.getElem?_append_left (by omega), List.getElem?_eq_getElem (by omega),
        Option.getD_some]
    have htake : s.take (n + 1) = s.take n ++ [s[n]] := (List.take_append_getElem (by omega)).symm
    rw [trimEnd, hget, htake]
    by_cases hblank : isblank s[n] = true
    · rw [if_pos hblank, ih (by omega), List.rdropWhile_concat_pos _ _ _ hblank]
    · rw [if_neg hblank, List.rdropWhile_concat_neg _ _ _ hblank, List.length_append, List.length_take,
        List.length_singleton]
      omega

/-- What is cut off behind the item does not matter. -/
theorem take_rdropWhile_length (s : List Byte) (m : Nat) :
    ((s.take m).rdropWhile isblank).length = (s.rdropWhile isblank).length ↔
      (s.rdropWhile isblank).length ≤ m := by
  obtain ⟨item, hitem⟩ : ∃ item, item = s.rdropWhile isblank := ⟨_, rfl⟩
  have hsplit := List.rdropWhile_append_rtakeWhile (p := isblank) (l := s)
  have hself := List.rdropWhile_idempotent isblank s
  rw [← hitem] at hsplit hself ⊢
  constructor
  · intro hlen
    have hle := (List.rdropWhile_prefix isblank (s.take m)).length_le
    rw [List.length_take] at hle
    omega
  · intro hle
    have hblanks : ∀ c ∈ (s.rtakeWhile isblank).take (m - item.length), isblank c = true :=
      fun c hc => List.mem_rtakeWhile_imp ((List.take_subset _ _) hc)
    rw [← hsplit, List.take_append, List.take_of_length_le hle, Segments.rdropWhile_append_pos _ _ hblanks, hself]

/-- The length of an entry is kept exactly where the `int` leaves all of it. -/
theorem trimmedLen_iff (entry more : List Byte) :
    trimmedLen (entry.dropWhile isblank ++ more) (entry.dropWhile isblank).length = (trimBlanks entry).length ↔
      KeepsLength entry := by
  obtain ⟨body, hbody⟩ : ∃ body, body = entry.dropWhile isblank := ⟨_, rfl⟩
  have hint : toInt32 (body.length % 2 ^ 32) ≤ body.length := by
    rw [toInt32]
    split_ifs <;> omega
  unfold KeepsLength trimmedLen
  rw [trimBlanks, ← hbody]
  dsimp only
  generalize toInt32 (body.length % 2 ^ 32) = n at hint
  by_cases hpos : 0 < n
  · rw [if_pos (by omega), if_pos hpos, trimEnd_eq body more _ (by omega), take_rdropWhile_length]
    omega
  · rw [if_neg (by omega), if_neg hpos, Int.sub_add_cancel]
    omega

theorem keepsLength_short {entry : List Byte} (h : entry.length < 2 ^ 31) : KeepsLength entry := by
  have hbody := (List.dropWhile_suffix (l := entry) isblank).length_le
  have hitem : (trimBlanks entry).length ≤ (entry.dropWhile isblank).length :=
    (List.rdropWhile_prefix isblank _).length_le
  have hint : toInt32 ((entry.dropWhile isblank).length % 2 ^ 32) = (entry.dropWhile isblank).length := by
    rw [Nat.mod_eq_of_lt (by omega), toInt32, if_pos (by omega)]
  unfold KeepsLength
  dsimp only
  rw [hint]
  split_ifs <;> omega

theorem entry_split (list : List Byte) :
    list.dropWhile isblank = (list.takeWhile (· != COMMA)).dropWhile isblank ++ list.dropWhile (· != COMMA) := by
  obtain ⟨hentry, hrest⟩ := dropWhile_isblank_entry list
  have hsplit := List.takeWhile_append_dropWhile (p := (· != COMMA)) (l := list.dropWhile isblank)
  rw [hentry, hrest] at hsplit
  exact hsplit.symm

theorem tail_behind_entry (list : List Byte) :
    ((list.dropWhile isblank).drop ((list.takeWhile (· != COMMA)).dropWhile isblank).length).tail =
      (list.dropWhile (· != COMMA)).tail := by
  conv_lhs => rw [entry_split list, List.drop_left]

/-- The value of an entry, if it is not taken for an empty one. -/
def entryVec (eqVal : Bool) (ptr : List Byte) (len : Nat) : Option (Vec × Option Vec) :=
  if len = 0 then none
  else if eqVal then
    match memchr ptr EQUALS len with
    | some i => some (⟨ptr, i⟩, some ⟨ptr.drop (i + 1), len - (i + 1)⟩)
    | none => some (⟨ptr, len⟩, none)
  else some (⟨ptr, len⟩, none)

theorem optionVecs_eq (eqVal : Bool) (list : List Byte) :
    optionVecs eqVal list =
      match nextOptionVec eqVal list with
      | none => []
      | some (v, e, rest) => (v, e) :: optionVecs eqVal rest := by
  rw [optionVecs]
  split
  · next h => rw [h]
  · next v e rest h => rw [h]

/-- The calls take the entries one by one. -/
theorem optionVecs_step (eqVal : Bool) (list : List Byte) :
    optionVecs eqVal list =
      (entryVec eqVal (list.dropWhile isblank)
          (trimmedLen (list.dropWhile isblank) ((list.takeWhile (· != COMMA)).dropWhile isblank).length)).toList ++
        optionVecs eqVal (list.dropWhile (· != COMMA)).tail := by
  by_cases hnil : list = []
  · subst hnil
    rfl
  · obtain ⟨hentry, -⟩ := dropWhile_isblank_entry list
    have hrest := tail_behind_entry list
    rw [optionVecs_eq, nextOptionVec, dif_neg hnil]
    dsimp only
    rw [hentry, hrest, entryVec]
    generalize trimmedLen (list.dropWhile isblank) ((list.takeWhile (· != COMMA)).dropWhile isblank).length = len
    by_cases hlen : len = 0
    · rw [if_pos hlen, if_pos hlen, Option.toList_none, List.nil_append, ← optionVecs_eq]
    · rw [if_neg hlen, if_neg hlen]
      cases eqVal with
      | false => rfl
      | true =>
        cases hequals : memchr (list.dropWhile isblank) EQUALS len with
        | none => rfl
        | some i => rfl

theorem entries_step {P : List Byte → Prop} (hnil : P []) (list : List Byte) :
    (∀ entry ∈ list.splitOn COMMA, P entry) ↔
      P (list.takeWhile (· != COMMA)) ∧ ∀ entry ∈ (list.dropWhile (· != COMMA)).tail.splitOn COMMA, P entry := by
  rcases splitOn_comma list with ⟨hrest, hsplit⟩ | hsplit
  · rw [hsplit, hrest, List.tail_nil, List.forall_mem_singleton]
    refine (and_iff_left ?_).symm
    intro entry hentry
    rw [List.mem_singleton.mp hentry]
    exact hnil
  · rw [hsplit, List.forall_mem_cons]

theorem nextOptionVec_step {list : List Byte} (hne : list ≠ []) (h : list.length < 2 ^ 31) :
    nextOptionVec false list =
      let ptr := list.dropWhile isblank
      let len := ((ptr.takeWhile (· != COMMA)).rdropWhile isblank).length
      let rest := (ptr.dropWhile (· != COMMA)).tail
      if len = 0 then nextOptionVec false rest else some (⟨ptr, len⟩, none, rest) := by
  obtain ⟨hentry, hbehind⟩ := dropWhile_isblank_entry list
  have hshort := (List.takeWhile_prefix (l := list) (· != COMMA)).length_le
  have hlen := (trimmedLen_iff (list.takeWhile (· != COMMA)) (list.dropWhile (· != COMMA))).mpr
    (keepsLength_short (by omega))
  have hrest := tail_behind_entry list
  rw [← entry_split] at hlen
  rw [nextOptionVec, dif_neg hne]
  dsimp only
  rw [(optionValue_eq list).1, hbehind, hentry, hrest, hlen, if_neg Bool.false_ne_true]

/-- Below 2^31 bytes, `next_option` takes the same values as its model without lengths in an `int`. -/
theorem nextOptionVec_short {list : List Byte} (h : list.length < 2 ^ 31) :
    nextOptionVec false list = (nextOption list).map fun (ptr, len, rest) => (⟨ptr, len⟩, none, rest) := by
  fun_induction nextOption list with
  | case1 => rw [nextOptionVec, dif_pos rfl, Option.map_none]
  | case2 list hne ptr value len rest hlen ih =>
    have hrest : rest.length ≤ list.length := by
      have h1 := (List.dropWhile_suffix (l := list) isblank).length_le
      have h2 := (List.dropWhile_suffix (l := ptr) (· != COMMA)).length_le
      simp only [rest, ptr, List.length_tail] at h2 ⊢
      omega
    rw [nextOptionVec_step hne h]
    exact (if_pos hlen).trans (ih (by omega))
  | case3 list hne ptr value len rest hlen =>
    rw [nextOptionVec_step hne h]
    exact if_neg hlen

/-! ### The texts -/

theorem Vec.text?_eq_some (v : Vec) (t : List Byte) : v.text? = some t ↔ v.len = t.length ∧ t <+: v.ptr := by
  rw [text?]
  constructor
  · intro h
    split_ifs at h with hle
    obtain rfl := Option.some.inj h
    exact ⟨by rw [List.length_take, Nat.min_eq_left hle], List.take_prefix _ _⟩
  · rintro ⟨hlen, hfront⟩
    rw [if_pos (by rw [hlen]; exact hfront.length_le), hlen, ← List.prefix_iff_eq_take.mp hfront]

theorem memchr_item (item t : List Byte) :
    memchr (item ++ t) EQUALS item.length =
      if EQUALS ∈ item then some (item.takeWhile (· != EQUALS)).length else none := by
  rw [memchr, List.take_left]

/-- An item is cut at its first `=`. -/
theorem item_split {item : List Byte} (h : EQUALS ∈ item) :
    item = item.takeWhile (· != EQUALS) ++ EQUALS :: (item.dropWhile (· != EQUALS)).tail := by
  apply Segments.split_first
  intro hnil
  rw [List.dropWhile_eq_nil_iff] at hnil
  simpa using hnil EQUALS h

theorem memchr_lt {s : List Byte} {n i : Nat} (h : memchr s EQUALS n = some i) : i < n := by
  rw [memchr] at h
  split_ifs at h with hmem
  obtain rfl := Option.some.inj h
  have hsplit := congrArg List.length (item_split hmem)
  rw [List.length_take, List.length_append, List.length_cons] at hsplit
  omega

theorem itemText_whole {eqVal : Bool} {item : List Byte} (h : ¬ (eqVal = true ∧ EQUALS ∈ item)) :
    itemText eqVal item = (some item, none) := if_neg h

/-- A value without `eq_val` that is the item has its length. -/
theorem whole_length {eqVal : Bool} {ptr item : List Byte} {len : Nat}
    (h : valueText (⟨ptr, len⟩, none) = itemText eqVal item) : len = item.length := by
  by_cases hmem : eqVal = true ∧ EQUALS ∈ item
  · rw [itemText, if_pos hmem] at h
    cases (Prod.mk.inj h).2
  · rw [itemText_whole hmem] at h
    exact ((Vec.text?_eq_some _ item).mp (Prod.mk.inj h).1).1

/-- The value of an entry is the item where its length is that of the item. -/
theorem entryVec_text (eqVal : Bool) (item t : List Byte) (len : Nat) (hne : item ≠ []) :
    (entryVec eqVal (item ++ t) len).map valueText = some (itemText eqVal item) ↔ len = item.length := by
  constructor
  · intro h
    rw [entryVec] at h
    by_cases hlen : len = 0
    · rw [if_pos hlen] at h
      cases h
    rw [if_neg hlen] at h
    cases eqVal with
    | false => exact whole_length (Option.some.inj h)
    | true =>
      rw [if_pos rfl] at h
      cases hequals : memchr (item ++ t) EQUALS len with
      | none =>
        rw [hequals] at h
        exact whole_length (Option.some.inj h)
      | some i =>
        have hi := memchr_lt hequals
        rw [hequals] at h
        have h : valueText (⟨item ++ t, i⟩, some ⟨(item ++ t).drop (i + 1), len - (i + 1)⟩) = itemText true item :=
          Option.some.inj h
        by_cases hmem : EQUALS ∈ item
        · rw [itemText, if_pos ⟨rfl, hmem⟩] at h
          obtain ⟨hval, hrest⟩ := Prod.mk.inj h
          have hval := ((Vec.text?_eq_some _ _).mp hval).1
          have hrest := ((Vec.text?_eq_some _ _).mp (Option.some.inj hrest)).1
          have hsplit := congrArg List.length (item_split hmem)
          rw [List.length_append, List.length_cons] at hsplit
          dsimp only at hval hrest
          omega
        · rw [itemText_whole fun h => hmem h.2] at h
          cases (Prod.mk.inj h).2
  · rintro rfl
    have hlen : item.length ≠ 0 := fun h => hne (List.eq_nil_of_length_eq_zero h)
    have hwhole : valueText (⟨item ++ t, item.length⟩, none) = (some item, none) := by
      rw [valueText, (Vec.text?_eq_some _ item).mpr ⟨rfl, List.prefix_append _ _⟩]
      rfl
    rw [entryVec, if_neg hlen]
    cases eqVal with
    | false => exact congrArg some (hwhole.trans (itemText_whole fun h => Bool.false_ne_true h.1).symm)
    | true =>
      rw [if_pos rfl, memchr_item]
      by_cases hmem : EQUALS ∈ item
      · have hsplit := item_split hmem
        rw [if_pos hmem, itemText, if_pos ⟨rfl, hmem⟩]
        generalize item.takeWhile (· != EQUALS) = val at hsplit
        generalize (item.dropWhile (· != EQUALS)).tail = rest at hsplit
        have hdrop : (item ++ t).drop (val.length + 1) = rest ++ t := by
          rw [hsplit, List.append_assoc, ← List.drop_drop, List.drop_left]
          rfl
        have hfront : (⟨item ++ t, val.length⟩ : Vec).text? = some val := by
          refine (Vec.text?_eq_some _ val).mpr ⟨rfl, ?_⟩
          rw [hsplit, List.append_assoc]
          exact List.prefix_append _ _
        have hbehind : (⟨rest ++ t, item.length - (val.length + 1)⟩ : Vec).text? = some rest := by
          refine (Vec.text?_eq_some _ rest).mpr ⟨?_, List.prefix_append _ _⟩
          rw [hsplit, List.length_append, List.length_cons]
          dsimp only
          omega
        dsimp only
        rw [hdrop, Option.map_some, valueText, hfront, Option.map_some, hbehind]
      · rw [if_neg hmem]
        exact congrArg some (hwhole.trans (itemText_whole fun h => hmem h.2).symm)

theorem optionTexts_step (eqVal : Bool) (list : List Byte) :
    optionTexts eqVal list =
      ((entryVec eqVal (list.dropWhile isblank) (trimmedLen (list.dropWhile isblank)
          ((list.takeWhile (· != COMMA)).dropWhile isblank).length)).map valueText).toList ++
        optionTexts eqVal (list.dropWhile (· != COMMA)).tail := by
  rw [optionTexts, optionVecs_step, List.map_append, Option.toList_map]
  rfl

/-- One entry against one item: the rest comes out as it does behind equal values. -/
theorem value_cons {α : Type*} (value : Option α) (item : α) (texts items : List α)
    (hcount : texts.length ≤ items.length) :
    value.toList ++ texts = item :: items ↔ value = some item ∧ texts = items := by
  cases value with
  | none =>
    refine iff_of_false ?_ (by rintro ⟨⟨⟩, -⟩)
    intro h
    have hlen := congrArg List.length h
    rw [Option.toList_none, List.nil_append, List.length_cons] at hlen
    omega
  | some a => rw [Option.toList_some, List.singleton_append, List.cons.injEq, Option.some.injEq]

theorem blank_entry {entry : List Byte} (h : trimBlanks entry = []) : entry.dropWhile isblank = [] := by
  rw [trimBlanks, List.rdropWhile_eq_nil_iff] at h
  cases hbody : entry.dropWhile isblank with
  | nil => rfl
  | cons c body =>
    have hfirst := Scan.head_dropWhile isblank entry c (by rw [hbody]; rfl)
    rw [h c (by rw [hbody]; exact List.mem_cons_self)] at hfirst
    cases hfirst

/-- An induction over the entries of a list. -/
theorem entries_induction {P : List Byte → Prop} (hnil : P [])
    (hstep : ∀ list, P (list.dropWhile (· != COMMA)).tail → P list) (list : List Byte) : P list := by
  induction hn : list.length using Nat.strong_induction_on generalizing list with
  | _ n ih =>
  by_cases hlist : list = []
  · rw [hlist]
    exact hnil
  · refine hstep list (ih _ ?_ _ rfl)
    have hle := (List.dropWhile_suffix (l := list) (· != COMMA)).length_le
    have hpos := List.length_pos_iff.mpr hlist
    rw [List.length_tail]
    omega

theorem optionTexts_nil (eqVal : Bool) : optionTexts eqVal [] = [] := by
  rw [optionTexts, optionVecs_eq, nextOptionVec, dif_pos rfl]
  rfl

/-- No entry is more than one value, and an empty one is none. -/
theorem optionTexts_length (eqVal : Bool) (list : List Byte) :
    (optionTexts eqVal list).length ≤ (optionItems list).length := by
  induction list using entries_induction with
  | hnil => rw [optionTexts_nil]; exact Nat.zero_le _
  | hstep list ih =>
    rw [optionTexts_step, optionItems_step, List.length_append, List.length_append]
    refine Nat.add_le_add ?_ ih
    by_cases hitem : trimBlanks (list.takeWhile (· != COMMA)) = []
    · rw [hitem, blank_entry hitem]
      exact Nat.le_refl 0
    · rw [List.filter_cons_of_pos (by simpa using hitem)]
      exact Option.length_toList_le

/-- The values of a list are its items where the first entry keeps its length, and so for the rest of the list. -/
theorem optionTexts_entry (eqVal : Bool) (list : List Byte) :
    optionTexts eqVal list = (optionItems list).map (itemText eqVal) ↔
      KeepsLength (list.takeWhile (· != COMMA)) ∧
        optionTexts eqVal (list.dropWhile (· != COMMA)).tail =
          (optionItems (list.dropWhile (· != COMMA)).tail).map (itemText eqVal) := by
  have hvalue := trimmedLen_iff (list.takeWhile (· != COMMA)) (list.dropWhile (· != COMMA))
  rw [optionItems_step, optionTexts_step, ← hvalue, ← entry_split]
  have hcount := optionTexts_length eqVal (list.dropWhile (· != COMMA)).tail
  by_cases hitem : trimBlanks (list.takeWhile (· != COMMA)) = []
  · have hlen : trimmedLen (list.dropWhile isblank)
        ((list.takeWhile (· != COMMA)).dropWhile isblank).length = 0 := by
      rw [blank_entry hitem]
      rfl
    rw [hlen, hitem]
    exact (and_iff_right rfl).symm
  · have hfront : list.dropWhile isblank = trimBlanks (list.takeWhile (· != COMMA)) ++
        (((list.takeWhile (· != COMMA)).dropWhile isblank).rtakeWhile isblank ++ list.dropWhile (· != COMMA)) := by
      rw [← List.append_assoc, trimBlanks, List.rdropWhile_append_rtakeWhile, ← entry_split]
    rw [List.filter_cons_of_pos (by simpa using hitem), List.filter_nil, List.singleton_append, List.map_cons,
      value_cons _ _ _ _ (by rw [List.length_map]; exact hcount)]
    refine and_congr_left fun _ => ?_
    generalize trimmedLen (list.dropWhile isblank) ((list.takeWhile (· != COMMA)).dropWhile isblank).length = len
    rw [hfront]
    exact entryVec_text eqVal _ _ len hitem

/-- The values are the items exactly if the length of every entry, without the blanks in front of it, comes through
its conversion to `int`: every entry below 2^31 bytes does. -/
theorem optionTexts_items (eqVal : Bool) (list : List Byte) :
    optionTexts eqVal list = (optionItems list).map (itemText eqVal) ↔
      ∀ entry ∈ list.splitOn COMMA, KeepsLength entry := by
  have hkeeps : KeepsLength [] := by decide
  induction list using entries_induction with
  | hnil =>
    rw [optionTexts_nil]
    exact iff_of_true rfl fun entry hentry => (List.mem_singleton.mp hentry) ▸ hkeeps
  | hstep list ih =>
    rw [entries_step hkeeps, optionTexts_entry]
    exact and_congr_right fun _ => ih

/-- An item of 2^31 + 1 bytes. -/
def hugeItem : List Byte := List.replicate (2 ^ 31 + 1) 97

theorem optionTexts_items_huge : ¬ ∀ (eqVal : Bool) (list : List Byte),
    optionTexts eqVal list = (optionItems list).map (itemText eqVal) := by
  intro h
  have hne : hugeItem ≠ [] := by
    rw [hugeItem, List.replicate_succ]
    exact List.cons_ne_nil _ _
  have hblank : hugeItem.dropWhile isblank = hugeItem := by
    rw [hugeItem, List.dropWhile_replicate]
    rfl
  have hcomma : hugeItem.takeWhile (· != COMMA) = hugeItem := by
    rw [hugeItem, List.takeWhile_replicate]
    rfl
  have htrim : trimBlanks hugeItem = hugeItem := by
    rw [trimBlanks, hblank, List.rdropWhile, hugeItem, List.reverse_replicate, List.dropWhile_replicate,
      if_neg (by decide), List.reverse_replicate]
  have hlen : trimmedLen hugeItem hugeItem.length = 2 ^ 64 - 2 ^ 31 + 1 := by
    rw [trimmedLen, hugeItem, List.length_replicate]
    rfl
  have hlist := h false hugeItem
  have hcount := optionTexts_length false (hugeItem.dropWhile (· != COMMA)).tail
  rw [optionTexts_step, optionItems_step, hcomma, hblank, htrim, hlen,
    List.filter_cons_of_pos (by simpa using hne), List.filter_nil, List.singleton_append, List.map_cons,
    value_cons _ _ _ _ (by rw [List.length_map]; exact hcount)] at hlist
  have hkept := (entryVec_text false hugeItem [] (2 ^ 64 - 2 ^ 31 + 1) hne).mp (by rw [List.append_nil]; exact hlist.1)
  rw [hugeItem, List.length_replicate] at hkept
  omega

/-! ### The lists as the other functions go through them -/

/-- Below 2^31 bytes the values are the items. -/
theorem optionTexts_short (eqVal : Bool) {list : List Byte} (h : list.length < 2 ^ 31) :
    optionTexts eqVal list = (optionItems list).map (itemText eqVal) := by
  induction list using entries_induction with
  | hnil => exact optionTexts_nil eqVal
  | hstep list ih =>
    have hfirst := (List.takeWhile_prefix (l := list) (· != COMMA)).length_le
    have hrest := (List.dropWhile_suffix (l := list) (· != COMMA)).length_le
    refine (optionTexts_entry eqVal list).mpr ⟨keepsLength_short (by omega), ih ?_⟩
    rw [List.length_tail]
    omega

/-- The options of a header are the values in front of the `=`. -/
theorem options_texts {header : List Byte} (h : header.length < 2 ^ 31) :
    (optionTexts true header).map (·.1) = (options header).map some := by
  rw [optionTexts_short true h, options, ← optionItems, List.map_map, List.map_map]
  refine List.map_congr_left fun item _ => ?_
  by_cases hequals : EQUALS ∈ item
  · simp [itemText, hequals]
  · have hwhole : item.takeWhile (· != EQUALS) = item := by
      rw [List.takeWhile_eq_self_iff]
      exact fun c hc => bne_iff_ne.mpr fun heq => hequals (heq ▸ hc)
    simp only [Function.comp_apply, itemText_whole fun h => hequals h.2]
    exact congrArg some hwhole.symm

/-- The entries of a list without `=` are its values. -/
theorem optionEntries_texts {list : List Byte} (h : list.length < 2 ^ 31) :
    (optionTexts false list).map (·.1) = (optionEntries list).map some := by
  rw [optionTexts_short false h, optionEntries, ← optionItems, List.map_map]
  refine List.map_congr_left fun item _ => ?_
  simp only [Function.comp_apply, itemText_whole fun h => Bool.false_ne_true h.1]

/-- The pairs of a list are the values and what stands behind their `=`; without one it is empty. -/
theorem optionPairs_texts {list : List Byte} (h : list.length < 2 ^ 31) :
    (optionTexts true list).map (fun value => (value.1, value.2.getD (some []))) =
      (optionPairs list).map fun pair => (some pair.1, some pair.2) := by
  rw [optionTexts_short true h, optionPairs, ← optionItems, List.map_map, List.map_map]
  refine List.map_congr_left fun item _ => ?_
  by_cases hequals : EQUALS ∈ item
  · simp [itemText, hequals]
  · have hall : ∀ c ∈ item, (c != EQUALS) = true := fun c hc => bne_iff_ne.mpr fun heq => hequals (heq ▸ hc)
    have hwhole : item.takeWhile (· != EQUALS) = item := List.takeWhile_eq_self_iff.mpr hall
    have hnone : item.dropWhile (· != EQUALS) = [] := List.dropWhile_eq_nil_iff.mpr hall
    simp only [Function.comp_apply, itemText_whole fun h => hequals h.2, Option.getD_none]
    show _ = (some (item.takeWhile (· != EQUALS)), some (item.dropWhile (· != EQUALS)).tail)
    rw [hwhole, hnone]
    rfl

end CivetWeb
