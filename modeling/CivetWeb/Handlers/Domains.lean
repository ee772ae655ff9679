import CivetWeb.Handlers.Setters
import CivetWeb.Lib.System

namespace CivetWeb

open LinkedList

/-- A domain that was added to a server. -/
structure ServerDomain where
  authenticationDomain : List Byte
  handlers : Option Addr
  deriving DecidableEq, Repr

/-- A running server: `reg` has the handlers of the default domain `dd`. -/
structure Server where
  stopFlag : Bool
  reg : Registry
  authenticationDomain : List Byte
  domains : List ServerDomain
  deriving DecidableEq, Repr

/-- What `get_option_index` says of a name. -/
inductive OptionIndex where
  | unknown
  | authenticationDomain
  | other
  deriving DecidableEq, Repr

/-- The options of a domain, names and values; `none` for an invalid one. Only the authentication domain is
read again here. -/
def storeOptions (config : Option (List Byte)) :
    List (OptionIndex × Option (List Byte)) → Option (Option (List Byte))
  | [] => some config
  | (.unknown, _) :: _ => none
  | (_, none) :: _ => none
  | (.authenticationDomain, some value) :: options => storeOptions (some value) options
  | (.other, some _) :: options => storeOptions config options

/-- `mg_start_domain2`; `calloc` and `initSsl` say whether these succeed. -/
def mgStartDomain2 (s : Server) (options : List (OptionIndex × Option (List Byte)))
    (calloc initSsl : Bool) : Int × Server :=
  if s.stopFlag then (-7, s)
  else if !calloc then (-6, s)
  else
    match storeOptions none options with
    | none => (-2, s)
    | some none => (-4, s)
    | some (some authenticationDomain) =>
      let newDom : ServerDomain := ⟨authenticationDomain, s.reg.handlers⟩
      if !initSsl then (-3, s)
      else if mgStrcasecmp authenticationDomain s.authenticationDomain = 0 ∨
          s.domains.any (fun dom => mgStrcasecmp authenticationDomain dom.authenticationDomain == 0) then
        (-5, s)
      else (s.domains.length + 1, { s with domains := s.domains ++ [newDom] })

/-- A call of the application: a handler of a URI, or a new domain. Between the calls requests take and
release references to the entries. -/
inductive ServerLabel where
  | setHandler (args : HandlerArgs) (calloc : Option Addr)
  | startDomain (options : List (OptionIndex × Option (List Byte))) (calloc initSsl : Bool)
  | references (a : Addr) (n : Int)
  deriving DecidableEq, Repr

namespace Server

/-- The calls of `mg_set_request_handler` and the like go to the handlers of the default domain. -/
def step (s : Server) : ServerLabel → Option Server
  | .setHandler args calloc =>
    if !args.accepted then some s
    else if calloc.any fun a => (read s.reg.mem a).isSome then none
    else some { s with reg := (s.reg.setHandlerRound args calloc).2 }
  | .startDomain options calloc initSsl => some (mgStartDomain2 s options calloc initSsl).2
  | .references a n =>
    some { s with reg := { s.reg with mem := modifyValue s.reg.mem a (HandlerInfo.addRefs n) } }

/-- A server with no handler and no other domain. -/
def initial (authenticationDomain : List Byte) : Server := ⟨false, ⟨[], none⟩, authenticationDomain, []⟩

/-- All domains have the handlers of the default domain, and these are allocated. -/
def Consistent (s : Server) : Prop :=
  ∃ entries, Chain s.reg.mem s.reg.handlers entries ∧
    ∀ dom ∈ s.domains, Chain s.reg.mem dom.handlers entries

/-- With other domains there, the call neither makes the first entry of an empty list nor frees the first
entry of a list. -/
def KeepsFirst (s : Server) (label : ServerLabel) : Prop :=
  match label with
  | .setHandler args calloc =>
    args.accepted = true → s.domains ≠ [] →
      (s.reg.entries = [] → args.isDeleteRequest = true ∨ calloc = none) ∧
      ∀ e rest, s.reg.entries = e :: rest → args.names e.2 = true →
        args.isDeleteRequest = false ∨ (args.handlerType = .request ∧ e.2.refcount ≠ 0)
  | _ => True

end Server

theorem chain_head (m : HandlerMemory) (p : Option Addr) (l : List (Addr × HandlerInfo))
    (h : Chain m p l) : p = l.head?.map (·.1) := by
  cases h <;> rfl

/-- Where the head of the list stays the same. -/
theorem effect_head (args : HandlerArgs) (calloc : Option Addr) (returned : Bool)
    (entries entries' : List (Addr × HandlerInfo))
    (heffect : RoundEffect args calloc entries returned entries') (hnodup : (entries.map (·.1)).Nodup) :
    entries'.head?.map (·.1) = entries.head?.map (·.1) ↔
      (entries = [] → args.isDeleteRequest = true ∨ calloc = none) ∧
      ∀ e rest, entries = e :: rest → args.names e.2 = true →
        args.isDeleteRequest = false ∨ (args.handlerType = .request ∧ e.2.refcount ≠ 0) := by
  -- the first entry is the one that is named, or is not named
  have hhead (front back : List (Addr × HandlerInfo)) (a : Addr) (info : HandlerInfo)
      (hfirst : FirstNamed args entries front a info back) (e : Addr × HandlerInfo)
      (rest : List (Addr × HandlerInfo)) (he : entries = e :: rest) (hnames : args.names e.2 = true) :
      front = [] ∧ e = (a, info) := by
    have hsplit := hfirst.split
    rw [he] at hsplit
    cases front with
    | nil => exact ⟨rfl, (List.cons.inj hsplit).1⟩
    | cons x front =>
      have hx := hfirst.front x List.mem_cons_self
      rw [← (List.cons.inj hsplit).1, hnames] at hx
      cases hx
  have hsome (front back : List (Addr × HandlerInfo)) (a : Addr) (info : HandlerInfo)
      (hfirst : FirstNamed args entries front a info back) : entries ≠ [] := by
    rw [hfirst.split]
    simp
  have hchanged (front back : List (Addr × HandlerInfo)) (a : Addr) (info info' : HandlerInfo)
      (hfirst : FirstNamed args entries front a info back) :
      (front ++ (a, info') :: back).head?.map (·.1) = entries.head?.map (·.1) := by
    rw [hfirst.split]
    cases front <;> rfl
  cases heffect with
  | wait front back a info hfirst _ htype hbusy =>
    refine ⟨fun _ => ⟨fun h => (hsome front back a info hfirst h).elim, ?_⟩, fun _ => rfl⟩
    intro e rest he hnames
    obtain ⟨-, rfl⟩ := hhead front back a info hfirst e rest he hnames
    exact Or.inr ⟨htype, hbusy⟩
  | mark front back a info hfirst _ htype hbusy =>
    refine ⟨fun _ => ⟨fun h => (hsome front back a info hfirst h).elim, ?_⟩,
      fun _ => hchanged front back a info _ hfirst⟩
    intro e rest he hnames
    obtain ⟨-, rfl⟩ := hhead front back a info hfirst e rest he hnames
    exact Or.inr ⟨htype, hbusy⟩
  | update front back a info hfirst hset _ =>
    exact ⟨fun _ => ⟨fun h => (hsome front back a info hfirst h).elim, fun _ _ _ _ => Or.inl hset⟩,
      fun _ => hchanged front back a info _ hfirst⟩
  | remove front back a info hfirst hdel hidle =>
    have hsplit := hfirst.split
    constructor
    · intro hsame
      refine ⟨fun h => (hsome front back a info hfirst h).elim, ?_⟩
      intro e rest he hnames
      obtain ⟨rfl, rfl⟩ := hhead front back a info hfirst e rest he hnames
      -- the head is now an entry behind the freed one
      rw [hsplit] at hsame hnodup
      rw [List.nil_append, List.map_cons, List.nodup_cons] at hnodup
      rw [List.nil_append, List.nil_append, List.head?_cons, Option.map_some] at hsame
      obtain ⟨x, hx, hxa⟩ := Option.map_eq_some_iff.mp hsame
      have hmem := List.mem_map_of_mem (f := (·.1)) (List.mem_of_head? hx)
      rw [hxa] at hmem
      exact (hnodup.1 hmem).elim
    · rintro ⟨-, hkeep⟩
      cases front with
      | cons x front =>
        rw [hsplit]
        rfl
      | nil =>
        rcases hkeep (a, info) back hsplit hfirst.names with hset | ⟨htype, hbusy⟩
        · rw [hdel] at hset
          cases hset
        · exact (hbusy (hidle htype)).elim
  | absent hnone hnothing =>
    refine ⟨fun _ => ⟨fun _ => hnothing, ?_⟩, fun _ => rfl⟩
    intro e rest he hnames
    rw [hnone e (by rw [he]; exact List.mem_cons_self)] at hnames
    cases hnames
  | insert a hnone hset hcalloc =>
    cases entries with
    | nil =>
      constructor
      · intro hsame
        cases hsame
      · rintro ⟨hempty, -⟩
        rcases hempty rfl with hdel | hnull
        · rw [hset] at hdel
          cases hdel
        · rw [hcalloc] at hnull
          cases hnull
    | cons x entries =>
      refine ⟨fun _ => ⟨fun h => (by cases h), ?_⟩, fun _ => rfl⟩
      intro e rest he hnames
      rw [hnone e (by rw [he]; exact List.mem_cons_self)] at hnames
      cases hnames

theorem mgStartDomain2_cases (s : Server) (options : List (OptionIndex × Option (List Byte)))
    (calloc initSsl : Bool) :
    (mgStartDomain2 s options calloc initSsl).2 = s ∨
      ∃ name, (mgStartDomain2 s options calloc initSsl).2 =
        { s with domains := s.domains ++ [⟨name, s.reg.handlers⟩] } := by
  unfold mgStartDomain2
  by_cases hstop : s.stopFlag = true
  · exact Or.inl (by rw [if_pos hstop])
  · rw [if_neg hstop]
    by_cases hcalloc : (!calloc) = true
    · exact Or.inl (by rw [if_pos hcalloc])
    · rw [if_neg hcalloc]
      cases storeOptions none options with
      | none => exact Or.inl rfl
      | some config =>
        cases config with
        | none => exact Or.inl rfl
        | some name =>
          dsimp only
          split_ifs
          · exact Or.inl rfl
          · exact Or.inl rfl
          · exact Or.inr ⟨name, rfl⟩

namespace Server

/-- The default domain has a list of allocated entries. -/
def HasList (s : Server) : Prop := ∃ entries, Chain s.reg.mem s.reg.handlers entries

theorem HasList.entries (s : Server) (h : s.HasList) :
    Chain s.reg.mem s.reg.handlers s.reg.entries := by
  obtain ⟨entries, hchain⟩ := h
  unfold Registry.entries
  rw [(listAt_eq s.reg.mem s.reg.handlers entries).mpr hchain]
  exact hchain

/-- The domains are consistent where they all start at the entry at which the default domain does. -/
theorem consistent_iff (s : Server) (h : s.HasList) :
    s.Consistent ↔ ∀ dom ∈ s.domains, dom.handlers = s.reg.handlers := by
  constructor
  · rintro ⟨entries, hdefault, hdoms⟩ dom hdom
    rw [chain_head _ _ _ hdefault, chain_head _ _ _ (hdoms dom hdom)]
  · intro hsame
    obtain ⟨entries, hchain⟩ := h
    exact ⟨entries, hchain, fun dom hdom => by rw [hsame dom hdom]; exact hchain⟩

/-- What a setter does to the entries of the default domain. -/
theorem setHandler_effect (s t : Server) (args : HandlerArgs) (calloc : Option Addr) (h : s.HasList)
    (hstep : s.step (.setHandler args calloc) = some t) :
    t = s ∧ args.accepted = false ∨ args.accepted = true ∧ t.domains = s.domains ∧
      ∃ returned entries', RoundEffect args calloc s.reg.entries returned entries' ∧
        Chain t.reg.mem t.reg.handlers entries' := by
  unfold Server.step at hstep
  dsimp only at hstep
  split_ifs at hstep with haccepted hused
  · exact Or.inl ⟨(Option.some.inj hstep).symm, by simpa using haccepted⟩
  · right
    have hfresh : ∀ a, calloc = some a → read s.reg.mem a = none := by
      rintro a rfl
      simpa using hused
    obtain ⟨entries', heffect, hchain'⟩ :=
      setHandlerRound_effect s.reg args calloc s.reg.entries h.entries hfresh
    rw [← Option.some.inj hstep]
    exact ⟨by simpa using haccepted, rfl, _, entries', heffect, hchain'⟩

theorem hasList_step (s t : Server) (label : ServerLabel) (h : s.HasList)
    (hstep : s.step label = some t) : t.HasList := by
  cases label with
  | setHandler args calloc =>
    rcases setHandler_effect s t args calloc h hstep with ⟨rfl, -⟩ | ⟨-, -, -, entries', -, hchain⟩
    · exact h
    · exact ⟨entries', hchain⟩
  | startDomain options calloc initSsl =>
    rw [← Option.some.inj hstep]
    rcases mgStartDomain2_cases s options calloc initSsl with heq | ⟨name, heq⟩
    · rw [heq]
      exact h
    · rw [heq]
      exact h
  | references a n =>
    obtain ⟨entries, hchain⟩ := h
    rw [← Option.some.inj hstep]
    exact ⟨_, hchain.modifyValue s.reg.mem s.reg.handlers entries a (HandlerInfo.addRefs n)⟩

/-- A step keeps the domains consistent exactly if it keeps the first entry. -/
theorem consistent_step (s t : Server) (label : ServerLabel) (h : s.HasList) (hs : s.Consistent)
    (hstep : s.step label = some t) : t.Consistent ↔ s.KeepsFirst label := by
  have ht := hasList_step s t label h hstep
  rw [consistent_iff t ht]
  rw [consistent_iff s h] at hs
  cases label with
  | setHandler args calloc =>
    rcases setHandler_effect s t args calloc h hstep with
      ⟨rfl, hrefused⟩ | ⟨haccepted, hdoms, returned, entries', heffect, hchain⟩
    · refine ⟨fun _ haccepted => ?_, fun _ => hs⟩
      rw [hrefused] at haccepted
      cases haccepted
    · have hhead : t.reg.handlers = s.reg.handlers ↔
          (s.reg.entries = [] → args.isDeleteRequest = true ∨ calloc = none) ∧
          ∀ e rest, s.reg.entries = e :: rest → args.names e.2 = true →
            args.isDeleteRequest = false ∨ (args.handlerType = .request ∧ e.2.refcount ≠ 0) := by
        rw [chain_head _ _ _ hchain, chain_head _ _ _ h.entries]
        exact effect_head args calloc returned _ entries' heffect
          (h.entries.nodup s.reg.mem s.reg.handlers _)
      rw [hdoms]
      constructor
      · intro hsame _ hnonempty
        obtain ⟨dom, hdom⟩ := List.exists_mem_of_ne_nil _ hnonempty
        exact hhead.mp ((hsame dom hdom).symm.trans (hs dom hdom))
      · intro hkeep dom hdom
        rw [hs dom hdom]
        exact (hhead.mpr (hkeep haccepted (List.ne_nil_of_mem hdom))).symm
  | startDomain options calloc initSsl =>
    refine ⟨fun _ => trivial, fun _ => ?_⟩
    rw [← Option.some.inj hstep]
    rcases mgStartDomain2_cases s options calloc initSsl with heq | ⟨name, heq⟩
    · rw [heq]
      exact hs
    · rw [heq]
      intro dom hdom
      rcases List.mem_append.mp hdom with hdom | hdom
      · exact hs dom hdom
      · rw [List.mem_singleton.mp hdom]
  | references a n =>
    rw [← Option.some.inj hstep]
    exact ⟨fun _ => trivial, fun _ => hs⟩

end Server

/-- From the start of a server on, its domains have the same live handlers in every state, exactly where
no call makes or frees the first entry of the list while other domains are there. -/
theorem domains_consistent (name : List Byte) (calls : List ServerLabel) :
    System.Always Server.step Server.Consistent (Server.initial name) calls ↔
      System.Along Server.step Server.KeepsFirst (Server.initial name) calls :=
  System.always_iff_along Server.step Server.HasList Server.Consistent Server.KeepsFirst
    (fun s label t => Server.hasList_step s t label) (fun s label t => Server.consistent_step s t label)
    (Server.initial name) calls ⟨[], Chain.nil⟩
    ⟨[], Chain.nil, fun _ hdom => (by cases hdom)⟩

/-- A handler is set, a domain added and the handler removed: the list of the domain starts at the entry
that is freed. -/
theorem domains_freed : ¬ System.Always Server.step Server.Consistent (Server.initial (ascii "a"))
    [.setHandler (mgSetRequestHandler (ascii "/x") 1 0) (some 5),
      .startDomain [(.authenticationDomain, some (ascii "b"))] true true,
      .setHandler (mgSetRequestHandler (ascii "/x") 0 0) none] := by
  intro h
  obtain ⟨t, hrun, hdom, hnone⟩ : ∃ t, System.run Server.step (Server.initial (ascii "a"))
      [.setHandler (mgSetRequestHandler (ascii "/x") 1 0) (some 5),
        .startDomain [(.authenticationDomain, some (ascii "b"))] true true,
        .setHandler (mgSetRequestHandler (ascii "/x") 0 0) none] = some t ∧
      (⟨ascii "b", some 5⟩ : ServerDomain) ∈ t.domains ∧ t.reg.handlers = none :=
    ⟨_, rfl, by decide, by decide⟩
  obtain ⟨entries, hdefault, hdoms⟩ := h.run _ _ _ t _ hrun
  rw [hnone] at hdefault
  cases hdefault
  cases hdoms _ hdom

end CivetWeb
