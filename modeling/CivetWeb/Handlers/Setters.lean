import CivetWeb.Handlers.References

namespace CivetWeb

open LinkedList

/-! ### Lookups -/

/-- An entry for the URI itself, for one above it, and with a pattern for it. -/
def HandlerInfo.Exact (info : HandlerInfo) (uri : List Byte) : Prop := info.uri = uri
def HandlerInfo.Above (info : HandlerInfo) (uri : List Byte) : Prop := info.uri ++ [47] <+: uri
def HandlerInfo.Pattern (info : HandlerInfo) (uri : List Byte) : Prop :=
  ∃ n, matchPrefix info.uri uri = some n ∧ 0 < n

/-- The first entry of the type with the property. -/
def FirstEntry (entries : List (Addr × HandlerInfo)) (handlerType : HandlerType) (p : HandlerInfo → Prop)
    (e : Addr × HandlerInfo) : Prop :=
  ∃ front back, entries = front ++ e :: back ∧ e.2.handlerType = handlerType ∧ p e.2 ∧
    ∀ x ∈ front, ¬ (x.2.handlerType = handlerType ∧ p x.2)

def NoEntry (entries : List (Addr × HandlerInfo)) (handlerType : HandlerType) (p : HandlerInfo → Prop) :
    Prop :=
  ∀ x ∈ entries, ¬ (x.2.handlerType = handlerType ∧ p x.2)

/-- The entry that is responsible for a URI. -/
inductive Lookup (entries : List (Addr × HandlerInfo)) (handlerType : HandlerType) (uri : List Byte) :
    Option (Addr × HandlerInfo) → Prop
  | exact (e : Addr × HandlerInfo) : FirstEntry entries handlerType (·.Exact uri) e →
      Lookup entries handlerType uri (some e)
  | above (e : Addr × HandlerInfo) : NoEntry entries handlerType (·.Exact uri) →
      FirstEntry entries handlerType (·.Above uri) e → Lookup entries handlerType uri (some e)
  | pattern (e : Addr × HandlerInfo) : NoEntry entries handlerType (·.Exact uri) →
      NoEntry entries handlerType (·.Above uri) → FirstEntry entries handlerType (·.Pattern uri) e →
      Lookup entries handlerType uri (some e)
  | none : NoEntry entries handlerType (·.Exact uri) → NoEntry entries handlerType (·.Above uri) →
      NoEntry entries handlerType (·.Pattern uri) → Lookup entries handlerType uri none

theorem matched_exact (info : HandlerInfo) (uri : List Byte) :
    info.matched uri 0 = true ↔ info.Exact uri := by
  unfold HandlerInfo.matched HandlerInfo.Exact
  rw [if_pos rfl, Bool.and_eq_true, beq_iff_eq, beq_iff_eq]
  exact ⟨fun h => h.2, fun h => ⟨congrArg List.length h, h⟩⟩

theorem matched_above (info : HandlerInfo) (uri : List Byte) :
    info.matched uri 1 = true ↔ info.Above uri := by
  unfold HandlerInfo.matched HandlerInfo.Above
  rw [if_neg (by omega), if_pos rfl, Bool.and_eq_true, Bool.and_eq_true, decide_eq_true_eq, beq_iff_eq,
    beq_iff_eq]
  constructor
  · rintro ⟨⟨hlt, hslash⟩, hfront⟩
    refine ⟨uri.drop (info.uri.length + 1), ?_⟩
    have hget : uri.getD info.uri.length 0 = uri[info.uri.length] := by
      rw [List.getD, List.getElem?_eq_getElem hlt, Option.getD_some]
    rw [hget] at hslash
    have hdrop := List.drop_eq_getElem_cons hlt
    rw [hslash] at hdrop
    rw [List.append_assoc, List.singleton_append, ← hdrop]
    nth_rewrite 1 [hfront]
    exact List.take_append_drop info.uri.length uri
  · rintro ⟨rest, rfl⟩
    refine ⟨⟨?_, ?_⟩, ?_⟩
    · simp
    · simp [List.getD]
    · simp

theorem matched_pattern (info : HandlerInfo) (uri : List Byte) :
    info.matched uri 2 = true ↔ info.Pattern uri := by
  unfold HandlerInfo.matched HandlerInfo.Pattern
  rw [if_neg (by omega), if_neg (by omega)]
  cases matchPrefix info.uri uri with
  | none => simp
  | some n => simp

theorem find_first (entries : List (Addr × HandlerInfo)) (handlerType : HandlerType) (uri : List Byte)
    (step : Nat) (p : HandlerInfo → Prop) (hp : ∀ info : HandlerInfo, info.matched uri step = true ↔ p info) :
    match entries.find? fun e => e.2.handlerType == handlerType && e.2.matched uri step with
    | some e => FirstEntry entries handlerType p e
    | none => NoEntry entries handlerType p := by
  have htest (e : Addr × HandlerInfo) :
      (e.2.handlerType == handlerType && e.2.matched uri step) = true ↔
        e.2.handlerType = handlerType ∧ p e.2 := by
    rw [Bool.and_eq_true, beq_iff_eq, hp]
  cases hfind : entries.find? fun e => e.2.handlerType == handlerType && e.2.matched uri step with
  | none =>
    intro x hx hmatch
    exact List.find?_eq_none.mp hfind x hx ((htest x).mpr hmatch)
  | some e =>
    obtain ⟨hmatch, front, back, hsplit, hfront⟩ := List.find?_eq_some_iff_append.mp hfind
    refine ⟨front, back, hsplit, ((htest e).mp hmatch).1, ((htest e).mp hmatch).2, ?_⟩
    intro x hx hx'
    have hnot := hfront x hx
    rw [(htest x).mpr hx'] at hnot
    cases hnot

/-- The search finds the entry that is responsible. -/
theorem findHandler_lookup (entries : List (Addr × HandlerInfo)) (handlerType : HandlerType)
    (uri : List Byte) : Lookup entries handlerType uri (findHandler entries handlerType uri) := by
  have h0 := find_first entries handlerType uri 0 (·.Exact uri) (matched_exact · uri)
  have h1 := find_first entries handlerType uri 1 (·.Above uri) (matched_above · uri)
  have h2 := find_first entries handlerType uri 2 (·.Pattern uri) (matched_pattern · uri)
  unfold findHandler
  simp only [List.findSome?]
  cases hfind0 : entries.find? fun e => e.2.handlerType == handlerType && e.2.matched uri 0 with
  | some e =>
    rw [hfind0] at h0
    exact Lookup.exact e h0
  | none =>
    rw [hfind0] at h0
    cases hfind1 : entries.find? fun e => e.2.handlerType == handlerType && e.2.matched uri 1 with
    | some e =>
      rw [hfind1] at h1
      exact Lookup.above e h0 h1
    | none =>
      rw [hfind1] at h1
      cases hfind2 : entries.find? fun e => e.2.handlerType == handlerType && e.2.matched uri 2 with
      | some e =>
        rw [hfind2] at h2
        exact Lookup.pattern e h0 h1 h2
      | none =>
        rw [hfind2] at h2
        exact Lookup.none h0 h1 h2

/-! ### A round of a setter -/

/-- The first entry that a setter names. -/
structure FirstNamed (args : HandlerArgs) (entries front : List (Addr × HandlerInfo)) (a : Addr)
    (info : HandlerInfo) (back : List (Addr × HandlerInfo)) : Prop where
  split : entries = front ++ (a, info) :: back
  front : ∀ e ∈ front, args.names e.2 = false
  names : args.names info = true

/-- What a round between lock and unlock does to the entries; the flag says that the call returns. -/
inductive RoundEffect (args : HandlerArgs) (calloc : Option Addr) (entries : List (Addr × HandlerInfo)) :
    Bool → List (Addr × HandlerInfo) → Prop
  | wait (front back : List (Addr × HandlerInfo)) (a : Addr) (info : HandlerInfo) :
      FirstNamed args entries front a info back → args.isDeleteRequest = false →
      args.handlerType = .request → info.refcount ≠ 0 → RoundEffect args calloc entries false entries
  | mark (front back : List (Addr × HandlerInfo)) (a : Addr) (info : HandlerInfo) :
      FirstNamed args entries front a info back → args.isDeleteRequest = true →
      args.handlerType = .request → info.refcount ≠ 0 →
      RoundEffect args calloc entries false (front ++ (a, info.markRemoving) :: back)
  | update (front back : List (Addr × HandlerInfo)) (a : Addr) (info : HandlerInfo) :
      FirstNamed args entries front a info back → args.isDeleteRequest = false →
      (args.handlerType = .request → info.refcount = 0) →
      RoundEffect args calloc entries true (front ++ (a, args.update info) :: back)
  | remove (front back : List (Addr × HandlerInfo)) (a : Addr) (info : HandlerInfo) :
      FirstNamed args entries front a info back → args.isDeleteRequest = true →
      (args.handlerType = .request → info.refcount = 0) →
      RoundEffect args calloc entries true (front ++ back)
  | absent : (∀ e ∈ entries, args.names e.2 = false) → args.isDeleteRequest = true ∨ calloc = none →
      RoundEffect args calloc entries true entries
  | insert (a : Addr) : (∀ e ∈ entries, args.names e.2 = false) → args.isDeleteRequest = false →
      calloc = some a → RoundEffect args calloc entries true (entries ++ [(a, args.newEntry)])

/-- A value changed in a list without an address twice is changed in one place. -/
theorem map_at (front back : List (Addr × HandlerInfo)) (a : Addr) (info : HandlerInfo)
    (f : HandlerInfo → HandlerInfo) (hnodup : ((front ++ (a, info) :: back).map (·.1)).Nodup) :
    ((front ++ (a, info) :: back).map fun e => if e.1 = a then (e.1, f e.2) else e) =
      front ++ (a, f info) :: back := by
  rw [List.map_append, List.map_cons] at hnodup
  obtain ⟨-, htail, hdisj⟩ := List.nodup_append.mp hnodup
  have hkeep (l : List (Addr × HandlerInfo)) (hl : a ∉ l.map (·.1)) :
      (l.map fun e => if e.1 = a then (e.1, f e.2) else e) = l := by
    have hsame : ∀ e ∈ l, (if e.1 = a then (e.1, f e.2) else e) = id e := by
      intro e he
      rw [if_neg]
      · rfl
      · rintro rfl
        exact hl (List.mem_map_of_mem he)
    rw [List.map_congr_left hsame, List.map_id]
  rw [List.map_append, List.map_cons, if_pos rfl, hkeep, hkeep]
  · exact (List.nodup_cons.mp htail).1
  · intro ha
    exact hdisj a ha a List.mem_cons_self rfl

theorem setHandlerRound_effect (reg : Registry) (args : HandlerArgs) (calloc : Option Addr)
    (entries : List (Addr × HandlerInfo)) (hchain : Chain reg.mem reg.handlers entries)
    (hfresh : ∀ a, calloc = some a → read reg.mem a = none) :
    ∃ entries', RoundEffect args calloc entries (reg.setHandlerRound args calloc).1 entries' ∧
      Chain (reg.setHandlerRound args calloc).2.mem (reg.setHandlerRound args calloc).2.handlers
        entries' := by
  have hentries : reg.entries = entries := by
    unfold Registry.entries
    rw [(listAt_eq reg.mem reg.handlers entries).mpr hchain]
    rfl
  have hsplit := List.takeWhile_append_dropWhile (p := fun e : Addr × HandlerInfo => !args.names e.2)
    (l := entries)
  have hfront : ∀ e ∈ entries.takeWhile (fun e => !args.names e.2), args.names e.2 = false := by
    intro e he
    simpa using List.mem_takeWhile_imp he
  unfold Registry.setHandlerRound
  rw [hentries]
  obtain ⟨front, hf⟩ : ∃ front, front = entries.takeWhile fun e => !args.names e.2 := ⟨_, rfl⟩
  rw [← hf] at hsplit hfront ⊢
  dsimp only
  cases hdrop : entries.dropWhile fun e => !args.names e.2 with
  | nil =>
    rw [hdrop, List.append_nil] at hsplit
    rw [hsplit] at hfront
    dsimp only
    by_cases hdel : args.isDeleteRequest = true
    · rw [if_pos hdel]
      exact ⟨entries, RoundEffect.absent hfront (Or.inl hdel), hchain⟩
    · rw [if_neg hdel]
      cases calloc with
      | none => exact ⟨entries, RoundEffect.absent hfront (Or.inr rfl), hchain⟩
      | some a =>
        rw [hsplit]
        refine ⟨entries ++ [(a, args.newEntry)], ?_, ?_⟩
        · exact RoundEffect.insert a hfront (by simpa using hdel) rfl
        · exact hchain.insertLast reg.mem reg.handlers entries a args.newEntry (hfresh a rfl)
  | cons e back =>
    obtain ⟨a, info⟩ := e
    rw [hdrop] at hsplit
    have hnames : args.names info = true := by
      have hhead := List.head?_dropWhile_not (fun e : Addr × HandlerInfo => !args.names e.2) entries
      rw [hdrop] at hhead
      simpa using hhead
    have hfirst : FirstNamed args entries front a info back := ⟨hsplit.symm, hfront, hnames⟩
    have hnodup := hchain.nodup reg.mem reg.handlers entries
    rw [← hsplit] at hnodup
    have hmodify (f : HandlerInfo → HandlerInfo) :
        Chain (modifyValue reg.mem a f) reg.handlers (front ++ (a, f info) :: back) := by
      rw [← map_at front back a info f hnodup, hsplit]
      exact hchain.modifyValue reg.mem reg.handlers entries a f
    dsimp only
    by_cases hbusy : args.handlerType = .request ∧ info.refcount ≠ 0
    · rw [if_pos hbusy]
      by_cases hdel : (!args.isDeleteRequest) = true
      · rw [if_pos hdel]
        exact ⟨entries, RoundEffect.wait front back a info hfirst (by simpa using hdel) hbusy.1 hbusy.2, hchain⟩
      · rw [if_neg hdel]
        exact ⟨_, RoundEffect.mark front back a info hfirst (by simpa using hdel) hbusy.1 hbusy.2, hmodify _⟩
    · rw [if_neg hbusy]
      have hidle : args.handlerType = .request → info.refcount = 0 := by
        intro htype
        by_contra hne
        exact hbusy ⟨htype, hne⟩
      by_cases hdel : (!args.isDeleteRequest) = true
      · rw [if_pos hdel]
        exact ⟨_, RoundEffect.update front back a info hfirst (by simpa using hdel) hidle,
          hmodify _⟩
      · rw [if_neg hdel]
        refine ⟨front ++ back, ?_, ?_⟩
        · exact RoundEffect.remove front back a info hfirst (by simpa using hdel) hidle
        · rw [← hsplit] at hchain
          exact hchain.remove reg.mem reg.handlers front back a info

end CivetWeb
