import CivetWeb.Acl.CheckAcl
import CivetWeb.Conn.RequestLen
import CivetWeb.Lib.Segments

namespace CivetWeb

/-- The loop of `header_has_option` over the values of `next_option`, each up to its `=`. -/
def headerHasOptionLoop (header option : List Byte) : Bool :=
  match _h : nextOption header with
  | none => false
  | some (ptr, len, rest) =>
    let optVec := (ptr.take len).takeWhile (· != 61)
    if mgStrncasecmp option optVec optVec.length = 0 then true else headerHasOptionLoop rest option
termination_by header.length
decreasing_by exact nextOption_length header ptr rest len _h

/-! ### The entries of a list -/

/-- The first entry of a list goes up to the comma, the others are behind it. -/
theorem splitOn_comma (list : List Byte) :
    (list.dropWhile (· != COMMA) = [] ∧ list.splitOn COMMA = [list.takeWhile (· != COMMA)]) ∨
      list.splitOn COMMA = list.takeWhile (· != COMMA) :: (list.dropWhile (· != COMMA)).tail.splitOn COMMA := by
  have hentry : COMMA ∉ list.takeWhile (· != COMMA) := by
    intro h
    simpa using Scan.takeWhile_all _ list COMMA h
  by_cases hnil : list.dropWhile (· != COMMA) = []
  · have hsplit := List.takeWhile_append_dropWhile (p := (· != COMMA)) (l := list)
    rw [hnil, List.append_nil] at hsplit
    refine .inl ⟨hnil, ?_⟩
    rw [hsplit] at hentry ⊢
    exact Segments.splitOn_single hentry
  · right
    conv_lhs => rw [Segments.split_first hnil]
    exact Segments.splitOn_first hentry _

/-- The entries between the commas, without the blanks around them and without the empty ones. -/
def optionItems (list : List Byte) : List (List Byte) := ((list.splitOn COMMA).map trimBlanks).filter (· ≠ [])

theorem optionItems_step (list : List Byte) :
    optionItems list =
      [trimBlanks (list.takeWhile (· != COMMA))].filter (· ≠ []) ++ optionItems (list.dropWhile (· != COMMA)).tail := by
  rcases splitOn_comma list with ⟨hnil, hsplit⟩ | hsplit
  · rw [optionItems, hsplit, hnil]
    exact (List.append_nil _).symm
  · rw [optionItems, hsplit, ← List.singleton_append, List.map_append, List.filter_append]
    rfl

/-- An entry is taken up to the comma, the others behind it. -/
theorem options_step (header : List Byte) :
    options header =
      ([trimBlanks (header.takeWhile (· != COMMA))].filter (· ≠ [])).map (·.takeWhile (· != 61)) ++
        options (header.dropWhile (· != COMMA)).tail := by
  show (optionItems header).map (·.takeWhile (· != 61)) = _
  rw [optionItems_step, List.map_append]
  rfl

/-- The blanks in front of a list are those in front of its first entry. -/
theorem dropWhile_isblank_entry (list : List Byte) :
    (list.dropWhile isblank).takeWhile (· != COMMA) = (list.takeWhile (· != COMMA)).dropWhile isblank ∧
      (list.dropWhile isblank).dropWhile (· != COMMA) = list.dropWhile (· != COMMA) := by
  induction list with
  | nil => exact ⟨rfl, rfl⟩
  | cons c list ih =>
    cases hc : isblank c with
    | false =>
      rw [List.dropWhile_cons_of_neg (by rw [hc]; decide)]
      refine ⟨?_, rfl⟩
      cases hcomma : c != COMMA with
      | false => rw [List.takeWhile_cons_of_neg (by rw [hcomma]; decide)]; rfl
      | true =>
        rw [List.takeWhile_cons_of_pos (p := (· != COMMA)) hcomma, List.dropWhile_cons_of_neg (by rw [hc]; decide)]
    | true =>
      have hcomma : (c != COMMA) = true := by
        rw [bne_iff_ne]
        rintro rfl
        exact absurd hc (by decide)
      rw [List.dropWhile_cons_of_pos hc, List.takeWhile_cons_of_pos (p := (· != COMMA)) hcomma,
        List.dropWhile_cons_of_pos hc, List.dropWhile_cons_of_pos (p := (· != COMMA)) hcomma]
      exact ih

/-- The value that `next_option` comes to is the first entry without the blanks around it. -/
theorem optionValue_eq (list : List Byte) :
    ((list.dropWhile isblank).takeWhile (· != COMMA)).rdropWhile isblank =
        trimBlanks (list.takeWhile (· != COMMA)) ∧
      (list.dropWhile isblank).dropWhile (· != COMMA) = list.dropWhile (· != COMMA) := by
  obtain ⟨hentry, hrest⟩ := dropWhile_isblank_entry list
  exact ⟨by rw [hentry, trimBlanks], hrest⟩

theorem take_rdropWhile (p q : Byte → Bool) (s : List Byte) :
    s.take ((s.takeWhile p).rdropWhile q).length = (s.takeWhile p).rdropWhile q :=
  List.prefix_iff_eq_take.mp ((List.rdropWhile_prefix q _).trans (List.takeWhile_prefix p)) |>.symm

/-- `next_option` goes through the entries one by one, without the empty ones. -/
theorem nextOption_options (list : List Byte) :
    (nextOption list = none ∧ options list = []) ∨
      ∃ ptr len rest, nextOption list = some (ptr, len, rest) ∧
        options list = (ptr.take len).takeWhile (· != 61) :: options rest := by
  fun_induction nextOption list with
  | case1 => exact .inl ⟨rfl, rfl⟩
  | case2 list hne ptr value len rest hlen ih =>
    obtain ⟨hvalue, hrest⟩ := optionValue_eq list
    have hempty : trimBlanks (list.takeWhile (· != COMMA)) = [] := by
      rw [← hvalue]
      exact List.eq_nil_of_length_eq_zero hlen
    have hstep := options_step list
    rw [hempty, ← hrest] at hstep
    rw [hstep]
    exact ih
  | case3 list hne ptr value len rest hlen =>
    obtain ⟨hvalue, hrest⟩ := optionValue_eq list
    refine .inr ⟨ptr, len, rest, rfl, ?_⟩
    have htake : ptr.take len = trimBlanks (list.takeWhile (· != COMMA)) :=
      (take_rdropWhile (· != COMMA) isblank ptr).trans hvalue
    have hfull : trimBlanks (list.takeWhile (· != COMMA)) ≠ [] := by
      rw [← hvalue]
      exact fun h => hlen (congrArg List.length h)
    rw [htake, options_step, ← hrest, List.filter_cons_of_pos (by simpa using hfull)]
    rfl

theorem headerHasOptionLoop_eq (header option : List Byte) :
    headerHasOptionLoop header option = headerHasOption header option := by
  fun_induction headerHasOptionLoop header option with
  | case1 header hnone =>
    rcases nextOption_options header with ⟨-, hopts⟩ | ⟨ptr, len, rest, hsome, -⟩
    · rw [headerHasOption, hopts]
      rfl
    · rw [hnone] at hsome
      cases hsome
  | case2 header ptr len rest hnext optVec hcmp =>
    rcases nextOption_options header with ⟨hnone, -⟩ | ⟨ptr', len', rest', hsome, hopts⟩
    · rw [hnext] at hnone
      cases hnone
    · rw [hnext] at hsome
      cases hsome
      rw [headerHasOption, hopts, List.any_cons, beq_iff_eq.mpr hcmp]
      rfl
  | case3 header ptr len rest hnext optVec hcmp ih =>
    rcases nextOption_options header with ⟨hnone, -⟩ | ⟨ptr', len', rest', hsome, hopts⟩
    · rw [hnext] at hnone
      cases hnone
    · rw [hnext] at hsome
      cases hsome
      rw [ih, headerHasOption, headerHasOption, hopts, List.any_cons, beq_eq_false_iff_ne.mpr hcmp]
      rfl

/-! ### Whole tokens -/

theorem tolower_nul : ∀ a, tolower a = tolower NUL → a = NUL := byte_all _ (by decide +kernel)

theorem mgStrncasecmp_comm (s t : List Byte) (n : Nat) : mgStrncasecmp s t n = 0 ↔ mgStrncasecmp t s n = 0 := by
  induction n generalizing s t with
  | zero => exact Iff.rfl
  | succ n ih =>
    rw [mgStrncasecmp, mgStrncasecmp]
    by_cases heq : tolower (deref s) = tolower (deref t)
    · rw [if_neg (not_not.mpr ((tolower_toNat_inj _ _).mpr heq)),
        if_neg (not_not.mpr ((tolower_toNat_inj _ _).mpr heq.symm))]
      by_cases hnul : deref s = NUL
      · have hnul' : deref t = NUL := tolower_nul _ (by rw [← heq, hnul])
        rw [if_pos hnul, if_pos hnul']
      · have hnul' : deref t ≠ NUL := fun h => hnul (tolower_nul _ (by rw [heq, h]))
        rw [if_neg hnul, if_neg hnul']
        exact ih s.tail t.tail
    · have hdiff : ((tolower (deref s)).toNat : Int) - (tolower (deref t)).toNat ≠ 0 := fun h =>
        heq ((tolower_toNat_inj _ _).mp h)
      have hdiff' : ((tolower (deref t)).toNat : Int) - (tolower (deref s)).toNat ≠ 0 := fun h =>
        heq ((tolower_toNat_inj _ _).mp h).symm
      rw [if_pos hdiff, if_pos hdiff']
      exact iff_of_false hdiff hdiff'

/-- One of the entries is the option, in any case of its letters. -/
def HasToken (header option : List Byte) : Prop := ∃ opt ∈ options header, opt.map tolower = option.map tolower

/-- One of the entries is only the beginning of the option, and be it empty as in `=x`. -/
def HasCutToken (header option : List Byte) : Prop :=
  ∃ opt ∈ options header, opt.map tolower <+: option.map tolower ∧ opt.length < option.length

theorem options_noNul {header : List Byte} (h : NUL ∉ header) : ∀ opt ∈ options header, NUL ∉ opt := by
  intro opt hopt hnul
  rw [options] at hopt
  obtain ⟨item, hitem, rfl⟩ := List.mem_map.mp hopt
  obtain ⟨entry, hentry, rfl⟩ := List.mem_map.mp (List.mem_filter.mp hitem).1
  have hin : NUL ∈ entry :=
    (List.dropWhile_suffix _).subset ((List.rdropWhile_prefix _ _).subset ((List.takeWhile_prefix _).subset hnul))
  exact h (Segments.mem_of_mem_splitOn hentry hin)

theorem headerHasOption_iff (header option : List Byte) (hheader : NUL ∉ header) :
    headerHasOption header option = true ↔ HasToken header option ∨ HasCutToken header option := by
  have hmatch : ∀ opt ∈ options header, (mgStrncasecmp option opt opt.length == 0) = true ↔
      opt.map tolower = option.map tolower ∨ opt.map tolower <+: option.map tolower ∧ opt.length < option.length := by
    intro opt hopt
    rw [beq_iff_eq, mgStrncasecmp_comm, mgStrncasecmp_eq_zero opt option (options_noNul hheader opt hopt)]
    constructor
    · intro hfront
      have hlen := hfront.length_le
      rw [List.length_map, List.length_map] at hlen
      rcases hlen.lt_or_eq with hlt | heq
      · exact .inr ⟨hfront, hlt⟩
      · exact .inl (hfront.eq_of_length (by rw [List.length_map, List.length_map, heq]))
    · rintro (heq | ⟨hfront, -⟩)
      · rw [heq]
      · exact hfront
  rw [headerHasOption, List.any_eq_true]
  constructor
  · rintro ⟨opt, hopt, hcmp⟩
    rcases (hmatch opt hopt).mp hcmp with heq | hcut
    · exact .inl ⟨opt, hopt, heq⟩
    · exact .inr ⟨opt, hopt, hcut⟩
  · rintro (⟨opt, hopt, heq⟩ | ⟨opt, hopt, hcut⟩)
    · exact ⟨opt, hopt, (hmatch opt hopt).mpr (.inl heq)⟩
    · exact ⟨opt, hopt, (hmatch opt hopt).mpr (.inr hcut)⟩

theorem shouldKeepAlive_header {conn : Conn} {header : List Byte} (hopen : conn.mustClose = false)
    (henabled : mgStrcasecmp conn.domain.enableKeepAlive (ascii "yes") = 0)
    (hheader : mgGetHeader conn (ascii "Connection") = some header) :
    shouldKeepAlive conn = headerHasOption header (ascii "keep-alive") := by
  rw [shouldKeepAlive, hopen, if_neg Bool.false_ne_true, if_neg (not_not.mpr henabled), hheader]

theorem token_or_cut {p q : Prop} : (p ∨ q ↔ p) ↔ (q → p) :=
  ⟨fun h hq => h.mp (.inr hq), fun h => ⟨fun hpq => hpq.elim id h, .inl⟩⟩

/-- A header is searched for whole tokens exactly if no entry of it is only the beginning of the option, or the
option is there as well; a request is kept alive by its header on the same condition. -/
theorem headerTokens_iff (header option : List Byte) (hheader : NUL ∉ header) :
    ((headerHasOptionLoop header option = true ↔ HasToken header option) ↔
      (HasCutToken header option → HasToken header option)) ∧
    ∀ conn : Conn, conn.mustClose = false → mgStrcasecmp conn.domain.enableKeepAlive (ascii "yes") = 0 →
      mgGetHeader conn (ascii "Connection") = some header →
      ((shouldKeepAlive conn = true ↔ HasToken header (ascii "keep-alive")) ↔
        (HasCutToken header (ascii "keep-alive") → HasToken header (ascii "keep-alive"))) := by
  refine ⟨?_, fun conn hopen henabled hconn => ?_⟩
  · rw [headerHasOptionLoop_eq, headerHasOption_iff header option hheader]
    exact token_or_cut
  · rw [shouldKeepAlive_header hopen henabled hconn, headerHasOption_iff header _ hheader]
    exact token_or_cut

/-- A request with a `Connection` header, to a domain that keeps connections alive. -/
def connectionRequest (header : List Byte) : Conn :=
  { freshConn 64 [] with
    domains := [⟨[], ascii "yes", []⟩]
    requestInfo := ⟨ascii "GET", ascii "/", ascii "1.1", [⟨ascii "Connection", header⟩]⟩ }

theorem headerTokens_iff_keepAlive :
    headerHasOptionLoop (ascii "Upgrade, Keep-Alive") (ascii "keep-alive") = true ∧
      shouldKeepAlive (connectionRequest (ascii "Upgrade, Keep-Alive")) = true := by
  have htoken : HasToken (ascii "Upgrade, Keep-Alive") (ascii "keep-alive") :=
    ⟨ascii "Keep-Alive", by decide, by decide⟩
  have hwhole := headerTokens_iff (ascii "Upgrade, Keep-Alive") (ascii "keep-alive") (by decide)
  exact ⟨(hwhole.1.mpr fun _ => htoken).mpr htoken,
    ((hwhole.2 (connectionRequest _) rfl (by decide) (by decide)).mpr fun _ => htoken).mpr htoken⟩

/-- `keep` is taken for `keep-alive`. -/
theorem headerTokens_keep :
    ¬ (headerHasOptionLoop (ascii "keep") (ascii "keep-alive") = true ↔
        HasToken (ascii "keep") (ascii "keep-alive")) ∧
      ¬ (shouldKeepAlive (connectionRequest (ascii "keep")) = true ↔
        HasToken (ascii "keep") (ascii "keep-alive")) := by
  have hno : ¬ HasToken (ascii "keep") (ascii "keep-alive") := by
    rintro ⟨opt, hopt, heq⟩
    have hall : ∀ opt ∈ options (ascii "keep"), opt.map tolower ≠ (ascii "keep-alive").map tolower := by decide
    exact hall opt hopt heq
  refine ⟨fun h => hno (h.mp ?_), fun h => hno (h.mp (by decide))⟩
  rw [headerHasOptionLoop_eq]
  decide

end CivetWeb
