import CivetWeb.Conn.NextOption
import CivetWeb.Format
import CivetWeb.Lib.Memory
import CivetWeb.Lib.Packed

namespace CivetWeb

/-! ### The environment of a CGI program -/

def CGI_ENVIRONMENT_SIZE : Nat := 4096
def MAX_CGI_ENVIR_VARS : Nat := 256

/-- A `char *`: the address of a block, and a place in it. -/
structure CharPtr where
  block : Nat
  offset : Nat
  deriving DecidableEq, Repr

/-- A block from the allocator: its address, and what the bytes hold that nothing was copied to. -/
structure NewBlock where
  block : Nat
  junk : Nat → Byte

/-- `cgi_environment`, with the bytes that `buf` points to, and how often its buffer was to be enlarged so far. -/
structure CgiEnvironment where
  buf : Nat
  mem : List Byte
  buflen : Nat
  bufused : Nat
  var : List (Option CharPtr)
  varlen : Nat
  varused : Nat
  calls : Nat

/-- What `vsnprintf` returns for a text: its length, if that is an `int`. -/
def vsnprintfImpl (text : List Byte) : Int := if text.length ≤ INT_MAX then text.length else -1

/-- `mg_vsnprintf` of a text to `buflen` bytes from `p` on, and whether it is truncated; `none` where the place of
the last byte is taken from a `buflen` that is no `int`. -/
def mgVsnprintf (mem : List Byte) (p buflen : Nat) (text : List Byte) : Option (List Byte × Bool) :=
  if buflen = 0 then some (mem, true)
  else
    let n := vsnprintfImpl text
    let mem := Memory.store mem p (text.take (buflen - 1) ++ [NUL])
    if 0 ≤ n ∧ n.toNat < buflen then some (mem.set (p + n.toNat) NUL, false)
    else if buflen ≤ INT_MAX then some (mem.set (p + (buflen - 1)) NUL, true)
    else none

/-- The buffer after `mg_realloc_ctx`, and the pointers set again by a walk over its strings. -/
def CgiEnvironment.enlarge (env : CgiEnvironment) (added : NewBlock) : CgiEnvironment :=
  let mem := env.mem ++ (List.range CGI_ENVIRONMENT_SIZE).map added.junk
  { env with
    buf := added.block
    mem := mem
    buflen := env.buflen + CGI_ENVIRONMENT_SIZE
    var := Memory.store env.var 0 ((Packed.walk NUL mem 0 env.varused).map fun n => some ⟨added.block, n⟩)
    calls := env.calls + 1 }

/-- A text written to the free space of the buffer, and whether it is truncated. -/
def CgiEnvironment.print (env : CgiEnvironment) (space : Nat) (text : List Byte) : Option (CgiEnvironment × Bool) :=
  match mgVsnprintf env.mem env.bufused (space - 1) text with
  | none => none
  | some (mem, truncated) => some ({ env with mem := mem }, truncated)

/-- The end of `addenv`: the text behind the used bytes becomes an entry. -/
def CgiEnvironment.register (env : CgiEnvironment) : CgiEnvironment :=
  { env with
    bufused := env.bufused + ((cstr (env.mem.drop env.bufused)).length + 1)
    var := env.var.set env.varused (some ⟨env.buf, env.bufused⟩)
    varused := env.varused + 1 }

theorem vsnprintfImpl_fits {text : List Byte} {n : Nat} :
    (0 ≤ vsnprintfImpl text ∧ (vsnprintfImpl text).toNat < n) ↔ text.length ≤ INT_MAX ∧ text.length < n := by
  unfold vsnprintfImpl
  split_ifs with h
  · simp [h]
  · simp [h]

/-- A text is truncated where it does not fit, or where its length is no `int`. -/
theorem mgVsnprintf_truncated {mem mem' : List Byte} {p buflen : Nat} {text : List Byte}
    (h : mgVsnprintf mem p buflen text = some (mem', true)) : buflen ≤ text.length := by
  unfold mgVsnprintf at h
  dsimp only at h
  by_cases hzero : buflen = 0
  · omega
  · rw [if_neg hzero] at h
    by_cases hfits : text.length ≤ INT_MAX ∧ text.length < buflen
    · rw [if_pos (vsnprintfImpl_fits.mpr hfits)] at h
      have hflag := (Prod.mk.inj (Option.some.inj h)).2
      cases hflag
    · rw [if_neg (mt vsnprintfImpl_fits.mp hfits)] at h
      by_cases hint : buflen ≤ INT_MAX
      · omega
      · rw [if_neg hint] at h
        cases h

theorem CgiEnvironment.print_truncated {env env' : CgiEnvironment} {space : Nat} {text : List Byte}
    (h : env.print space text = some (env', true)) :
    space ≤ text.length + 1 ∧ env'.bufused = env.bufused ∧ env'.buflen = env.buflen := by
  unfold CgiEnvironment.print at h
  split at h
  case h_1 => cases h
  case h_2 mem truncated heq =>
    obtain ⟨rfl, rfl⟩ := Prod.mk.inj (Option.some.inj h)
    have hle := mgVsnprintf_truncated heq
    exact ⟨by omega, rfl, rfl⟩

/-- The turns of the loop of `addenv` that enlarge the buffer first. -/
def addenvGrow (realloc : Nat → Option NewBlock) (text : List Byte) (env : CgiEnvironment) : Option CgiEnvironment :=
  match realloc env.calls with
  | none => some { env with calls := env.calls + 1 }
  | some added =>
    match _h : (env.enlarge added).print ((env.enlarge added).buflen - (env.enlarge added).bufused) text with
    | none => none
    | some (env', true) => addenvGrow realloc text env'
    | some (env', false) => some env'.register
termination_by text.length + 2 + env.bufused - env.buflen
decreasing_by
  obtain ⟨hspace, hused, hlen⟩ := CgiEnvironment.print_truncated _h
  have hsize : 0 < CGI_ENVIRONMENT_SIZE := by decide
  simp only [CgiEnvironment.enlarge] at hspace hused hlen
  omega

/-- `addenv` of a text; `realloc` has what each call of the allocator comes to. -/
def addenv (realloc : Nat → Option NewBlock) (env : CgiEnvironment) (text : List Byte) : Option CgiEnvironment :=
  if env.varlen - env.varused < 2 then some env
  else
    let space := env.buflen - env.bufused
    if space ≤ 2 then addenvGrow realloc text env
    else
      match env.print space text with
      | none => none
      | some (env', true) => addenvGrow realloc text env'
      | some (env', false) => some env'.register

/-- `addenv` of one text after the other. -/
def addenvAll (realloc : Nat → Option NewBlock) (env : CgiEnvironment) (texts : List (List Byte)) :
    Option CgiEnvironment :=
  texts.foldlM (addenv realloc) env

/-- The environment before the first text: what `mg_malloc_ctx` gives for the buffer and the pointers is not set. -/
def emptyEnvironment (buf : NewBlock) (var : Nat → Option CharPtr) : CgiEnvironment where
  buf := buf.block
  mem := (List.range CGI_ENVIRONMENT_SIZE).map buf.junk
  buflen := CGI_ENVIRONMENT_SIZE
  bufused := 0
  var := (List.range MAX_CGI_ENVIR_VARS).map var
  varlen := MAX_CGI_ENVIR_VARS
  varused := 0
  calls := 0

/-- The end of `prepare_cgi_environment`. -/
def CgiEnvironment.terminate (env : CgiEnvironment) : CgiEnvironment :=
  { env with
    var := env.var.set env.varused none
    mem := env.mem.set env.bufused NUL }

/-- The environment has the entries `kept`, one behind the other in its buffer, and a pointer to each of them. -/
structure CgiEnvironment.Holds (env : CgiEnvironment) (kept : List (List Byte)) : Prop where
  size : env.mem.length = env.buflen
  slots : env.var.length = env.varlen
  block : Packed.pack NUL kept <+: env.mem
  used : (Packed.pack NUL kept).length = env.bufused
  count : kept.length = env.varused
  pointers : env.var.take env.varused = (Packed.starts 0 kept).map fun n => some ⟨env.buf, n⟩
  noNul : ∀ s ∈ kept, NUL ∉ s
  free : env.varused < env.varlen
  room : env.bufused < env.buflen
  limit : env.varlen = MAX_CGI_ENVIR_VARS
  short : ∀ s ∈ kept, s.length ≤ INT_MAX
  spare : env.buflen ≤ env.bufused + (INT_MAX + 1 + CGI_ENVIRONMENT_SIZE)

theorem holds_emptyEnvironment (buf : NewBlock) (var : Nat → Option CharPtr) :
    (emptyEnvironment buf var).Holds [] where
  size := by rw [emptyEnvironment, List.length_map, List.length_range]
  slots := by rw [emptyEnvironment, List.length_map, List.length_range]
  block := List.nil_prefix
  used := rfl
  count := rfl
  pointers := rfl
  noNul := List.forall_mem_nil _
  free := by
    change 0 < MAX_CGI_ENVIR_VARS
    decide
  room := by
    change 0 < CGI_ENVIRONMENT_SIZE
    decide
  limit := rfl
  short := List.forall_mem_nil _
  spare := by
    change CGI_ENVIRONMENT_SIZE ≤ 0 + (INT_MAX + 1 + CGI_ENVIRONMENT_SIZE)
    decide

/-- A new buffer has the entries of the old one, and the pointers lead to it. -/
theorem CgiEnvironment.Holds.enlarge {env : CgiEnvironment} {kept : List (List Byte)} (h : env.Holds kept)
    (hspace : env.buflen - env.bufused ≤ INT_MAX + 1) (added : NewBlock) : (env.enlarge added).Holds kept := by
  have hblock : Packed.pack NUL kept <+: env.mem ++ (List.range CGI_ENVIRONMENT_SIZE).map added.junk :=
    h.block.trans (List.prefix_append _ _)
  have hwalk := Packed.walk_pack NUL (env.mem ++ (List.range CGI_ENVIRONMENT_SIZE).map added.junk) 0 kept h.noNul hblock
  have hcount := h.count
  have hfree := h.free
  have hslots := h.slots
  have hlen : ((Packed.starts 0 kept).map fun n => some (CharPtr.mk added.block n)).length = env.varused := by
    rw [List.length_map, Packed.length_starts, hcount]
  constructor
  case size =>
    rw [CgiEnvironment.enlarge, List.length_append, h.size, List.length_map, List.length_range]
  case slots => rw [CgiEnvironment.enlarge, Memory.length_store, hslots]
  case block => exact hblock
  case used => exact h.used
  case count => exact hcount
  case pointers =>
    rw [CgiEnvironment.enlarge]
    dsimp only
    rw [← hcount, hwalk, hcount, Memory.store_eq_append _ _ _ (by omega), List.take_zero, List.nil_append,
      List.take_left' hlen]
  case noNul => exact h.noNul
  case free => exact hfree
  case room => exact Nat.lt_add_right _ h.room
  case limit => exact h.limit
  case short => exact h.short
  case spare =>
    change env.buflen + CGI_ENVIRONMENT_SIZE ≤ env.bufused + (INT_MAX + 1 + CGI_ENVIRONMENT_SIZE)
    omega

/-- A write behind the entries leaves them as they are. -/
theorem CgiEnvironment.Holds.write {env : CgiEnvironment} {kept : List (List Byte)} {mem : List Byte}
    (h : env.Holds kept) (hlen : mem.length = env.mem.length)
    (htake : mem.take env.bufused = env.mem.take env.bufused) :
    ({ env with mem := mem } : CgiEnvironment).Holds kept where
  size := hlen.trans h.size
  slots := h.slots
  block := by
    have hused := h.used
    have hroom := h.room
    have hsize := h.size
    have hpack := List.prefix_iff_eq_take.mp h.block
    rw [hused, ← htake] at hpack
    rw [hpack]
    exact List.take_prefix _ _
  used := h.used
  count := h.count
  pointers := h.pointers
  noNul := h.noNul
  free := h.free
  room := h.room
  limit := h.limit
  short := h.short
  spare := h.spare

/-- A string with the byte behind it begins what it is read from. -/
theorem cstr_prefix_stop (text rest : List Byte) : cstr text ++ [NUL] <+: text ++ NUL :: rest := by
  obtain ⟨mem, hmem⟩ : ∃ mem, mem = text ++ NUL :: rest := ⟨_, rfl⟩
  have hsplit : cstr mem ++ mem.dropWhile (· != NUL) = mem := List.takeWhile_append_dropWhile
  have hread : cstr mem = cstr text := by rw [hmem, cstr_cut]
  have hnul : NUL ∈ mem := by rw [hmem]; simp
  cases hbehind : mem.dropWhile (· != NUL) with
  | nil =>
    rw [hbehind, List.append_nil] at hsplit
    rw [← hsplit] at hnul
    exact absurd hnul (cstr_noNul mem)
  | cons b behind =>
    have hb := Scan.head_dropWhile (· != NUL) mem b (by rw [hbehind]; exact rfl)
    have hstop : b = NUL := by simpa using hb
    rw [hbehind, hstop] at hsplit
    rw [← hmem, ← hread]
    exact ⟨behind, by rw [List.append_assoc]; exact hsplit⟩

/-- The text behind the used bytes becomes the last entry. -/
theorem CgiEnvironment.Holds.register {env : CgiEnvironment} {kept : List (List Byte)} {text rest : List Byte}
    (h : env.Holds kept) (hint : text.length ≤ INT_MAX) (htext : env.mem.drop env.bufused = text ++ NUL :: rest)
    (hrest : rest ≠ []) (hfree : env.varused + 1 < env.varlen) : env.register.Holds (kept ++ [cstr text]) := by
  have hread : cstr (env.mem.drop env.bufused) = cstr text := by rw [htext, cstr_cut]
  have hslots := h.slots
  have hpack := List.prefix_iff_eq_take.mp h.block
  rw [h.used] at hpack
  constructor
  case size => exact h.size
  case slots => exact (List.length_set ..).trans h.slots
  case block =>
    have hmem := List.take_append_drop env.bufused env.mem
    rw [htext, ← hpack] at hmem
    change Packed.pack NUL (kept ++ [cstr text]) <+: env.mem
    rw [Packed.pack_concat, ← hmem]
    exact (List.prefix_append_right_inj _).mpr (cstr_prefix_stop text rest)
  case used =>
    change (Packed.pack NUL (kept ++ [cstr text])).length = env.bufused + ((cstr (env.mem.drop env.bufused)).length + 1)
    rw [Packed.pack_concat, List.length_append, List.length_append, List.length_singleton, h.used, hread]
  case count =>
    change (kept ++ [cstr text]).length = env.varused + 1
    rw [List.length_append, List.length_singleton, h.count]
  case pointers =>
    change (env.var.set env.varused (some ⟨env.buf, env.bufused⟩)).take (env.varused + 1) =
      (Packed.starts 0 (kept ++ [cstr text])).map fun n => some ⟨env.buf, n⟩
    have hset : env.varused < (env.var.set env.varused (some ⟨env.buf, env.bufused⟩)).length := by
      rw [List.length_set]
      omega
    rw [List.take_succ_eq_append_getElem hset, List.getElem_set_self, List.take_set_of_le (Nat.le_refl _), h.pointers,
      Packed.starts_concat NUL, List.map_append, h.used, Nat.zero_add]
    rfl
  case noNul =>
    intro s hs
    rcases List.mem_append.mp hs with hs | hs
    · exact h.noNul s hs
    · rw [List.mem_singleton.mp hs]
      exact cstr_noNul text
  case free => exact hfree
  case room =>
    change env.bufused + ((cstr (env.mem.drop env.bufused)).length + 1) < env.buflen
    have hshort := (prefix_cstr text).length_le
    have hpos := List.length_pos_of_ne_nil hrest
    have hlen := congrArg List.length htext
    rw [List.length_drop, h.size, List.length_append, List.length_cons] at hlen
    rw [hread]
    omega
  case limit => exact h.limit
  case short =>
    intro s hs
    rcases List.mem_append.mp hs with hs | hs
    · exact h.short s hs
    · rw [List.mem_singleton.mp hs]
      exact (prefix_cstr text).length_le.trans hint
  case spare =>
    change env.buflen ≤
      env.bufused + ((cstr (env.mem.drop env.bufused)).length + 1) + (INT_MAX + 1 + CGI_ENVIRONMENT_SIZE)
    have hspare := h.spare
    omega

/-- A text that fits is found behind the entries. -/
theorem CgiEnvironment.Holds.print_fits {env : CgiEnvironment} {kept : List (List Byte)} (h : env.Holds kept)
    {space : Nat} {text : List Byte} (hend : env.bufused + space ≤ env.buflen) (hint : text.length ≤ INT_MAX)
    (hfits : text.length < space - 1) :
    ∃ mem rest, env.print space text = some ({ env with mem := mem }, false) ∧
      ({ env with mem := mem } : CgiEnvironment).Holds kept ∧ mem.drop env.bufused = text ++ NUL :: rest ∧
      rest ≠ [] := by
  have hsize := h.size
  have htake : text.take (space - 1 - 1) = text := List.take_of_length_le (by omega)
  have hlen : (text ++ [NUL]).length = text.length + 1 := by rw [List.length_append, List.length_singleton]
  have hvalue : (vsnprintfImpl text).toNat = text.length := by rw [vsnprintfImpl, if_pos hint, Int.toNat_natCast]
  have hstore := Memory.store_eq_append env.mem env.bufused (text ++ [NUL]) (by omega)
  have hused : (env.mem.take env.bufused).length = env.bufused := List.length_take_of_le (by omega)
  obtain ⟨mem, hmem⟩ : ∃ mem, mem = (Memory.store env.mem env.bufused (text ++ [NUL])).set
      (env.bufused + text.length) NUL := ⟨_, rfl⟩
  refine ⟨mem, env.mem.drop (env.bufused + (text.length + 1)), ?_, h.write ?_ ?_, ?_, ?_⟩
  · have hne : ¬ space - 1 = 0 := by omega
    rw [CgiEnvironment.print, mgVsnprintf, if_neg hne, if_pos (vsnprintfImpl_fits.mpr ⟨hint, hfits⟩), htake, hvalue,
      hmem]
  · rw [hmem, List.length_set, Memory.length_store]
  · rw [hmem, List.take_set_of_le (Nat.le_add_right _ _), Memory.take_store]
  · have hset : ¬ env.bufused + text.length < env.bufused := by omega
    rw [hmem, List.drop_set, if_neg hset, hstore, hlen, List.append_assoc, List.drop_left' hused,
      Nat.add_sub_cancel_left, List.append_assoc, List.set_append_right _ _ (Nat.le_refl _), Nat.sub_self]
    rfl
  · refine List.ne_nil_of_length_pos ?_
    rw [List.length_drop]
    omega

/-- A text that does not fit leaves the entries as they are. -/
theorem CgiEnvironment.Holds.print_truncated {env : CgiEnvironment} {kept : List (List Byte)} (h : env.Holds kept)
    {space : Nat} {text : List Byte} (hpos : 2 ≤ space) (hint : space - 1 ≤ INT_MAX)
    (hlong : ¬ (text.length ≤ INT_MAX ∧ text.length < space - 1)) :
    ∃ mem, env.print space text = some ({ env with mem := mem }, true) ∧
      ({ env with mem := mem } : CgiEnvironment).Holds kept := by
  have hne : ¬ space - 1 = 0 := by omega
  obtain ⟨mem, hmem⟩ : ∃ mem, mem = (Memory.store env.mem env.bufused (text.take (space - 1 - 1) ++ [NUL])).set
      (env.bufused + (space - 1 - 1)) NUL := ⟨_, rfl⟩
  refine ⟨mem, ?_, h.write ?_ ?_⟩
  · rw [CgiEnvironment.print, mgVsnprintf, if_neg hne, if_neg (mt vsnprintfImpl_fits.mp hlong), if_pos hint, hmem]
  · rw [hmem, List.length_set, Memory.length_store]
  · rw [hmem, List.take_set_of_le (Nat.le_add_right _ _), Memory.take_store]

/-- A text that is too long for an `int` is not written to a space that is, too. -/
theorem CgiEnvironment.print_huge (env : CgiEnvironment) {space : Nat} {text : List Byte}
    (htext : INT_MAX < text.length) (hspace : INT_MAX < space - 1) : env.print space text = none := by
  have hne : ¬ space - 1 = 0 := by omega
  have hlong : ¬ (text.length ≤ INT_MAX ∧ text.length < space - 1) := by omega
  rw [CgiEnvironment.print, mgVsnprintf, if_neg hne, if_neg (mt vsnprintfImpl_fits.mp hlong),
    if_neg (Nat.not_le.mpr hspace)]

/-- What a written text comes to. -/
theorem CgiEnvironment.Holds.print_cases {env env' : CgiEnvironment} {kept : List (List Byte)} (h : env.Holds kept)
    {space : Nat} {text : List Byte} {truncated : Bool} (hpos : 2 ≤ space) (hend : env.bufused + space ≤ env.buflen)
    (hprint : env.print space text = some (env', truncated)) :
    env'.Holds kept ∧ (∃ mem, env' = { env with mem := mem }) ∧
      (truncated = true → space - 1 ≤ INT_MAX) ∧
      (truncated = false → text.length ≤ INT_MAX ∧
        ∃ rest, env'.mem.drop env'.bufused = text ++ NUL :: rest ∧ rest ≠ []) := by
  by_cases hfits : text.length ≤ INT_MAX ∧ text.length < space - 1
  · obtain ⟨mem, rest, hwritten, hholds, hfound, hrest⟩ := h.print_fits hend hfits.1 hfits.2
    obtain ⟨rfl, rfl⟩ := Prod.mk.inj (Option.some.inj (hwritten.symm.trans hprint))
    exact ⟨hholds, ⟨mem, rfl⟩, nofun, fun _ => ⟨hfits.1, rest, hfound, hrest⟩⟩
  · by_cases hint : space - 1 ≤ INT_MAX
    · obtain ⟨mem, hwritten, hholds⟩ := h.print_truncated hpos hint hfits
      obtain ⟨rfl, rfl⟩ := Prod.mk.inj (Option.some.inj (hwritten.symm.trans hprint))
      exact ⟨hholds, ⟨mem, rfl⟩, fun _ => hint, nofun⟩
    · rw [env.print_huge (by omega) (by omega)] at hprint
      cases hprint

/-- Nothing is written for a text and a space that are both too long for an `int`. -/
theorem CgiEnvironment.Holds.print_none {env : CgiEnvironment} {kept : List (List Byte)} (h : env.Holds kept)
    {space : Nat} {text : List Byte} (hpos : 2 ≤ space) (hend : env.bufused + space ≤ env.buflen)
    (hprint : env.print space text = none) : INT_MAX < text.length ∧ INT_MAX < space - 1 := by
  by_cases hfits : text.length ≤ INT_MAX ∧ text.length < space - 1
  · obtain ⟨mem, rest, hwritten, -⟩ := h.print_fits hend hfits.1 hfits.2
    rw [hwritten] at hprint
    cases hprint
  · by_cases hint : space - 1 ≤ INT_MAX
    · obtain ⟨mem, hwritten, -⟩ := h.print_truncated hpos hint hfits
      rw [hwritten] at hprint
      cases hprint
    · omega

/-- The space of a new buffer. -/
theorem CgiEnvironment.Holds.space_enlarge {env : CgiEnvironment} {kept : List (List Byte)} (h : env.Holds kept)
    (added : NewBlock) :
    2 ≤ (env.enlarge added).buflen - (env.enlarge added).bufused ∧
      (env.enlarge added).bufused + ((env.enlarge added).buflen - (env.enlarge added).bufused) ≤
        (env.enlarge added).buflen := by
  have hroom := h.room
  have hsize : CGI_ENVIRONMENT_SIZE = 4096 := rfl
  have hlen : (env.enlarge added).buflen = env.buflen + CGI_ENVIRONMENT_SIZE := rfl
  have hused : (env.enlarge added).bufused = env.bufused := rfl
  omega

/-- One of the allocator's calls between two environments fails. -/
def Refused (realloc : Nat → Option NewBlock) (env env' : CgiEnvironment) : Prop :=
  ∃ k, env.calls ≤ k ∧ k < env'.calls ∧ realloc k = none

/-- A text is added, or, where the allocator fails, left out. -/
theorem addenvGrow_holds {realloc : Nat → Option NewBlock} {text : List Byte} {env env' : CgiEnvironment}
    {kept : List (List Byte)} (h : env.Holds kept) (hspace : env.buflen - env.bufused ≤ INT_MAX + 1)
    (hfree : env.varused + 1 < env.varlen) (hadd : addenvGrow realloc text env = some env') :
    env'.Holds (kept ++ [cstr text]) ∨ env'.Holds kept ∧ Refused realloc env env' := by
  fun_induction addenvGrow realloc text env with
  | case1 env hrefused =>
    have hend : { env with calls := env.calls + 1 } = env' := Option.some.inj hadd
    rw [← hend]
    exact .inr ⟨⟨h.size, h.slots, h.block, h.used, h.count, h.pointers, h.noNul, h.free, h.room, h.limit, h.short,
      h.spare⟩, env.calls, Nat.le_refl _, Nat.lt_succ_self _, hrefused⟩
  | case2 => cases hadd
  | case3 env added _ grown hprint ih =>
    obtain ⟨hpos, hend⟩ := h.space_enlarge added
    obtain ⟨hgrown, ⟨mem, rfl⟩, hint, -⟩ := (h.enlarge hspace added).print_cases hpos hend hprint
    have hnext := hint rfl
    have hgrow : (env.enlarge added).buflen - (env.enlarge added).bufused ≤ INT_MAX + 1 := by omega
    rcases ih hgrown hgrow hfree hadd with hstored | ⟨hkept, k, hfrom, hto, hnone⟩
    · exact .inl hstored
    · exact .inr ⟨hkept, k, (Nat.le_succ env.calls).trans hfrom, hto, hnone⟩
  | case4 env added _ grown hprint =>
    obtain ⟨hpos, hend⟩ := h.space_enlarge added
    obtain ⟨hgrown, ⟨mem, rfl⟩, -, hfound⟩ := (h.enlarge hspace added).print_cases hpos hend hprint
    obtain ⟨hint, rest, htext, hrest⟩ := hfound rfl
    rw [← Option.some.inj hadd]
    exact .inl (hgrown.register hint htext hrest hfree)

/-- The text has a length that is an `int`, there is no pointer left for it, or the allocator fails before the free
space is too long for an `int`. -/
def CgiEnvironment.Fits (realloc : Nat → Option NewBlock) (env : CgiEnvironment) (text : List Byte) : Prop :=
  text.length ≤ INT_MAX ∨ env.varlen - env.varused < 2 ∨
    ∃ k, realloc (env.calls + k) = none ∧ env.buflen + k * CGI_ENVIRONMENT_SIZE - env.bufused ≤ INT_MAX + 1

theorem addenvGrow_some_iff {realloc : Nat → Option NewBlock} {text : List Byte} {env : CgiEnvironment}
    {kept : List (List Byte)} (h : env.Holds kept) (hspace : env.buflen - env.bufused ≤ INT_MAX + 1) :
    (∃ env', addenvGrow realloc text env = some env') ↔
      text.length ≤ INT_MAX ∨
        ∃ k, realloc (env.calls + k) = none ∧
          env.buflen + k * CGI_ENVIRONMENT_SIZE - env.bufused ≤ INT_MAX + 1 := by
  have hstep (k : Nat) : (k + 1) * CGI_ENVIRONMENT_SIZE = k * CGI_ENVIRONMENT_SIZE + CGI_ENVIRONMENT_SIZE :=
    Nat.succ_mul k _
  fun_induction addenvGrow realloc text env with
  | case1 env hrefused =>
    exact ⟨fun _ => .inr ⟨0, hrefused, by omega⟩, fun _ => ⟨_, rfl⟩⟩
  | case2 env added hgranted hprint =>
    obtain ⟨hpos, hend⟩ := h.space_enlarge added
    obtain ⟨htext, hlong⟩ := (h.enlarge hspace added).print_none hpos hend hprint
    have hlen : (env.enlarge added).buflen - (env.enlarge added).bufused =
        env.buflen + CGI_ENVIRONMENT_SIZE - env.bufused := rfl
    constructor
    · rintro ⟨env', henv⟩
      cases henv
    · rintro (hint | ⟨k, hnone, hk⟩)
      · omega
      · cases k with
        | zero => rw [Nat.add_zero, hgranted] at hnone; cases hnone
        | succ k =>
          have hk' := hstep k
          omega
  | case3 env added hgranted grown hprint ih =>
    obtain ⟨hpos, hend⟩ := h.space_enlarge added
    obtain ⟨hgrown, ⟨mem, rfl⟩, hint, -⟩ := (h.enlarge hspace added).print_cases hpos hend hprint
    have hlen : (env.enlarge added).buflen = env.buflen + CGI_ENVIRONMENT_SIZE := rfl
    have hcalls : (env.enlarge added).calls = env.calls + 1 := rfl
    have hused : (env.enlarge added).bufused = env.bufused := rfl
    have hnext := hint rfl
    refine (ih hgrown ?_).trans (or_congr_right ?_)
    · dsimp only
      omega
    · dsimp only
      constructor
      · rintro ⟨k, hnone, hk⟩
        have hk' := hstep k
        refine ⟨k + 1, ?_, by omega⟩
        rw [hcalls] at hnone
        rwa [Nat.add_comm k, ← Nat.add_assoc]
      · rintro ⟨k, hnone, hk⟩
        cases k with
        | zero => rw [Nat.add_zero, hgranted] at hnone; cases hnone
        | succ k =>
          have hk' := hstep k
          refine ⟨k, ?_, by omega⟩
          rwa [hcalls, Nat.add_assoc, Nat.add_comm 1]
  | case4 env added _ grown hprint =>
    obtain ⟨hpos, hend⟩ := h.space_enlarge added
    obtain ⟨-, -, -, hfound⟩ := (h.enlarge hspace added).print_cases hpos hend hprint
    exact ⟨fun _ => .inl (hfound rfl).1, fun _ => ⟨_, rfl⟩⟩

/-- A call of `addenv` adds its text, or leaves it out where there is no pointer for it or the allocator fails. -/
theorem addenv_holds {realloc : Nat → Option NewBlock} {text : List Byte} {env env' : CgiEnvironment}
    {kept : List (List Byte)} (h : env.Holds kept) (hadd : addenv realloc env text = some env') :
    env'.Holds (kept ++ [cstr text]) ∨
      env'.Holds kept ∧ (env.varlen - env.varused < 2 ∨ Refused realloc env env') := by
  have hroom := h.room
  have hint : (2 : Nat) ≤ INT_MAX + 1 := by decide
  unfold addenv at hadd
  dsimp only at hadd
  by_cases hfull : env.varlen - env.varused < 2
  · rw [if_pos hfull] at hadd
    rw [← Option.some.inj hadd]
    exact .inr ⟨h, .inl hfull⟩
  · rw [if_neg hfull] at hadd
    have hfree : env.varused + 1 < env.varlen := by omega
    by_cases hspace : env.buflen - env.bufused ≤ 2
    · rw [if_pos hspace] at hadd
      rcases addenvGrow_holds h (by omega) hfree hadd with hstored | ⟨hkept, hrefused⟩
      · exact .inl hstored
      · exact .inr ⟨hkept, .inr hrefused⟩
    · rw [if_neg hspace] at hadd
      cases hprint : env.print (env.buflen - env.bufused) text with
      | none => rw [hprint] at hadd; cases hadd
      | some written =>
        obtain ⟨grown, truncated⟩ := written
        obtain ⟨hgrown, ⟨mem, rfl⟩, hlong, hfound⟩ := h.print_cases (by omega) (by omega) hprint
        rw [hprint] at hadd
        cases truncated with
        | true =>
          have hnext := hlong rfl
          have hmore : env.buflen - env.bufused ≤ INT_MAX + 1 := by omega
          rcases addenvGrow_holds hgrown hmore hfree hadd with hstored | ⟨hkept, hrefused⟩
          · exact .inl hstored
          · exact .inr ⟨hkept, .inr hrefused⟩
        | false =>
          obtain ⟨htext, rest, hread, hrest⟩ := hfound rfl
          rw [← Option.some.inj hadd]
          exact .inl (hgrown.register htext hread hrest hfree)

/-- `addenv` keeps to its buffer exactly for the texts that fit. -/
theorem addenv_some_iff {realloc : Nat → Option NewBlock} {text : List Byte} {env : CgiEnvironment}
    {kept : List (List Byte)} (h : env.Holds kept) :
    (∃ env', addenv realloc env text = some env') ↔ env.Fits realloc text := by
  have hroom := h.room
  have hint : (2 : Nat) ≤ INT_MAX + 1 := by decide
  unfold addenv CgiEnvironment.Fits
  dsimp only
  by_cases hfull : env.varlen - env.varused < 2
  · rw [if_pos hfull]
    exact ⟨fun _ => .inr (.inl hfull), fun _ => ⟨env, rfl⟩⟩
  · rw [if_neg hfull, or_iff_right hfull]
    by_cases hspace : env.buflen - env.bufused ≤ 2
    · rw [if_pos hspace]
      exact addenvGrow_some_iff h (by omega)
    · rw [if_neg hspace]
      cases hprint : env.print (env.buflen - env.bufused) text with
      | none =>
        obtain ⟨htext, hlong⟩ := h.print_none (by omega) (by omega) hprint
        constructor
        · rintro ⟨env', henv⟩
          cases henv
        · rintro (hshort | ⟨k, -, hk⟩)
          · omega
          · omega
      | some written =>
        obtain ⟨grown, truncated⟩ := written
        obtain ⟨hgrown, ⟨mem, rfl⟩, hlong, hfound⟩ := h.print_cases (by omega) (by omega) hprint
        cases truncated with
        | true =>
          have hnext := hlong rfl
          exact addenvGrow_some_iff hgrown (by dsimp only; omega)
        | false => exact ⟨fun _ => .inl (hfound rfl).1, fun _ => ⟨_, rfl⟩⟩

/-- Each text fits when it is added. -/
def FitAll (realloc : Nat → Option NewBlock) : CgiEnvironment → List (List Byte) → Prop
  | _, [] => True
  | env, text :: texts =>
    env.Fits realloc text ∧ ∀ env', addenv realloc env text = some env' → FitAll realloc env' texts

/-- The entries that calls of `addenv` add: the texts, without those that there was no pointer or no memory for. -/
def Recorded (realloc : Nat → Option NewBlock) : CgiEnvironment → List (List Byte) → List (List Byte) → Prop
  | _, [], kept => kept = []
  | env, text :: texts, kept =>
    ∃ env', addenv realloc env text = some env' ∧
      ((∃ more, kept = cstr text :: more ∧ Recorded realloc env' texts more) ∨
        (env.varlen - env.varused < 2 ∨ Refused realloc env env') ∧ Recorded realloc env' texts kept)

/-- A block for a CGI program: its strings with a zero byte behind the last one, and a pointer to each of them with
`NULL` behind the last one. -/
structure CgiEnvironment.Complete (env : CgiEnvironment) (kept : List (List Byte)) : Prop where
  block : env.mem.take env.bufused = Packed.pack NUL kept
  blockEnd : env.mem[env.bufused]? = some NUL
  inBuf : env.bufused < env.buflen ∧ env.mem.length = env.buflen ∧ env.buflen < 2 ^ 64
  count : env.varused = kept.length
  pointers : ∀ i (h : i < kept.length), ∃ offset, env.var[i]? = some (some ⟨env.buf, offset⟩) ∧
    offset = (Packed.pack NUL (kept.take i)).length ∧ cstr (env.mem.drop offset) = kept[i]
  varEnd : env.var[env.varused]? = some none
  inVar : env.varused < env.varlen ∧ env.var.length = env.varlen

/-- The sums of sizes do not wrap. -/
theorem CgiEnvironment.Holds.buflen_lt {env : CgiEnvironment} {kept : List (List Byte)} (h : env.Holds kept) :
    env.buflen < 2 ^ 64 := by
  have hpack : ∀ xs : List (List Byte), (∀ s ∈ xs, s.length ≤ INT_MAX) →
      (Packed.pack NUL xs).length ≤ xs.length * (INT_MAX + 1) := by
    intro xs hxs
    induction xs with
    | nil => exact Nat.zero_le _
    | cons x xs ih =>
      have hx := hxs x List.mem_cons_self
      have hrest := ih fun s hs => hxs s (List.mem_cons_of_mem x hs)
      rw [Packed.pack_cons, List.length_append, List.length_cons, List.length_cons, Nat.succ_mul]
      omega
  have hmax : INT_MAX = 2147483647 := rfl
  have hsize : CGI_ENVIRONMENT_SIZE = 4096 := rfl
  have hvars : MAX_CGI_ENVIR_VARS = 256 := rfl
  have hused := hpack kept h.short
  have hcount := h.count
  have hfree := h.free
  have hlimit := h.limit
  have hspare := h.spare
  have hblock := h.used
  rw [hmax] at hused
  omega

/-- The last step of `prepare_cgi_environment` completes the block. -/
theorem CgiEnvironment.Holds.terminate {env : CgiEnvironment} {kept : List (List Byte)} (h : env.Holds kept) :
    env.terminate.Complete kept := by
  have hpack := List.prefix_iff_eq_take.mp h.block
  rw [h.used] at hpack
  have htake : env.terminate.mem.take env.bufused = Packed.pack NUL kept := by
    rw [CgiEnvironment.terminate, List.take_set_of_le (Nat.le_refl _), ← hpack]
  constructor
  case block => exact htake
  case blockEnd => exact List.getElem?_set_self (by rw [h.size]; exact h.room)
  case inBuf => exact ⟨h.room, (List.length_set ..).trans h.size, h.buflen_lt⟩
  case count => exact h.count.symm
  case pointers =>
    intro i hi
    have hvar : i < env.varused := by
      rw [← h.count]
      exact hi
    refine ⟨(Packed.pack NUL (kept.take i)).length, ?_, rfl, ?_⟩
    · have hset : (env.var.set env.varused none)[i]? = env.var[i]? := List.getElem?_set_ne hvar.ne'
      have htaken : (env.var.take env.varused)[i]? = env.var[i]? := List.getElem?_take_of_lt hvar
      rw [CgiEnvironment.terminate]
      dsimp only
      rw [hset, ← htaken, h.pointers, List.getElem?_map, Packed.getElem?_starts NUL 0 kept i hi, Nat.zero_add]
      rfl
    · refine Packed.read_item NUL _ kept h.noNul ?_ i hi
      rw [← htake]
      exact List.take_prefix _ _
  case varEnd => exact List.getElem?_set_self (by rw [h.slots]; exact h.free)
  case inVar => exact ⟨h.free, (List.length_set ..).trans h.slots⟩

/-- A run of `addenv` that keeps to its buffer has added texts that fit. -/
theorem addenvAll_fits {realloc : Nat → Option NewBlock} {texts : List (List Byte)} {env last : CgiEnvironment}
    {before : List (List Byte)} (h : env.Holds before) (hall : addenvAll realloc env texts = some last) :
    FitAll realloc env texts := by
  induction texts generalizing env before with
  | nil => trivial
  | cons text texts ih =>
    rw [addenvAll, List.foldlM_cons] at hall
    obtain ⟨env', hadd, hrest⟩ := Option.bind_eq_some_iff.mp hall
    refine ⟨(addenv_some_iff h).mp ⟨env', hadd⟩, ?_⟩
    intro env'' hadd'
    obtain rfl := Option.some.inj (hadd.symm.trans hadd')
    rcases addenv_holds h hadd with hstored | ⟨hkept, -⟩
    · exact ih hstored hrest
    · exact ih hkept hrest

/-- A run of `addenv` with texts that fit adds them to the entries. -/
theorem addenvAll_holds {realloc : Nat → Option NewBlock} {texts : List (List Byte)} {env : CgiEnvironment}
    {before : List (List Byte)} (h : env.Holds before) (hfit : FitAll realloc env texts) :
    ∃ last kept, addenvAll realloc env texts = some last ∧ Recorded realloc env texts kept ∧
      last.Holds (before ++ kept) := by
  induction texts generalizing env before with
  | nil =>
    refine ⟨env, [], rfl, rfl, ?_⟩
    rwa [List.append_nil]
  | cons text texts ih =>
    obtain ⟨hfits, hrest⟩ := hfit
    obtain ⟨env', hadd⟩ := (addenv_some_iff h).mpr hfits
    have hall : addenvAll realloc env (text :: texts) = addenvAll realloc env' texts := by
      rw [addenvAll, List.foldlM_cons, hadd]
      rfl
    rcases addenv_holds h hadd with hstored | ⟨hkept, hwhy⟩
    · obtain ⟨last, kept, hlast, hrecorded, hholds⟩ := ih hstored (hrest env' hadd)
      refine ⟨last, cstr text :: kept, hall.trans hlast, ⟨env', hadd, .inl ⟨kept, rfl, hrecorded⟩⟩, ?_⟩
      rwa [List.append_assoc] at hholds
    · obtain ⟨last, kept, hlast, hrecorded, hholds⟩ := ih hkept (hrest env' hadd)
      exact ⟨last, kept, hall.trans hlast, ⟨env', hadd, .inr ⟨hwhy, hrecorded⟩⟩, hholds⟩

/-- Whatever is added, and whenever the allocator fails: the block is complete, and has all the texts that there was
a pointer and memory for, exactly where each text fits when it is added. -/
theorem cgiEnvironment_complete_iff (realloc : Nat → Option NewBlock) (buf : NewBlock) (var : Nat → Option CharPtr)
    (texts : List (List Byte)) :
    (∃ last kept, addenvAll realloc (emptyEnvironment buf var) texts = some last ∧
      Recorded realloc (emptyEnvironment buf var) texts kept ∧ last.terminate.Complete kept) ↔
      FitAll realloc (emptyEnvironment buf var) texts := by
  constructor
  · rintro ⟨last, kept, hall, -, -⟩
    exact addenvAll_fits (holds_emptyEnvironment buf var) hall
  · intro hfit
    obtain ⟨last, kept, hall, hrecorded, hholds⟩ := addenvAll_holds (holds_emptyEnvironment buf var) hfit
    exact ⟨last, kept, hall, hrecorded, hholds.terminate⟩

/-- A string of 2^31 bytes, with an allocator that never fails, is written out of the buffer. -/
theorem cgiEnvironment_huge :
    ¬ ∃ last kept,
      addenvAll (fun n => some ⟨n, fun _ => NUL⟩) (emptyEnvironment ⟨0, fun _ => NUL⟩ (fun _ => none))
        [List.replicate (2 ^ 31) 65] = some last ∧
      Recorded (fun n => some ⟨n, fun _ => NUL⟩) (emptyEnvironment ⟨0, fun _ => NUL⟩ (fun _ => none))
        [List.replicate (2 ^ 31) 65] kept ∧ last.terminate.Complete kept := by
  rintro ⟨last, kept, hall, -, -⟩
  have hfits := (addenvAll_fits (holds_emptyEnvironment _ _) hall).1
  unfold CgiEnvironment.Fits at hfits
  rw [List.length_replicate] at hfits
  rcases hfits with hint | hfull | ⟨k, hnone, -⟩
  · exact absurd hint (by decide)
  · exact absurd hfull (by decide)
  · cases hnone

end CivetWeb
