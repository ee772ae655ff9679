import CivetWeb.Handlers.Setters
import CivetWeb.Lib.System

namespace CivetWeb

open LinkedList

/-- A call of `mg_set_handler_type`; between two rounds it sleeps. -/
structure SetterThread where
  args : HandlerArgs
  returned : Bool
  deriving DecidableEq, Repr

inductive RequesterPc where
  | arriving
  | executing (entry : Addr) (given : HandlerInfo)
  | finished
  deriving DecidableEq, Repr

/-- A request that acquires its entry once and releases it once. -/
structure Requester where
  uri : List Byte
  pc : RequesterPc
  deriving DecidableEq, Repr

structure SharedRegistry where
  reg : Registry
  setters : List SetterThread
  requests : List Requester
  deriving DecidableEq, Repr

inductive RegistryLabel where
  | call (args : HandlerArgs)
  | round (i : Nat) (calloc : Option Addr)
  | arrive (uri : List Byte)
  | acquire (i : Nat)
  | release (i : Nat)
  deriving DecidableEq, Repr

namespace SharedRegistry

/-- A step of one thread; what is locked is one step. `calloc` gives no memory that is in use. -/
def step (s : SharedRegistry) : RegistryLabel → Option SharedRegistry
  | .call args => some { s with setters := s.setters ++ [⟨args, !args.accepted⟩] }
  | .round i calloc =>
    match s.setters[i]? with
    | some ⟨args, false⟩ =>
      if calloc.any fun a => (read s.reg.mem a).isSome then none
      else
        let (returned, reg) := s.reg.setHandlerRound args calloc
        some { s with reg := reg, setters := s.setters.set i ⟨args, returned⟩ }
    | _ => none
  | .arrive uri => some { s with requests := s.requests ++ [⟨uri, .arriving⟩] }
  | .acquire i =>
    match s.requests[i]? with
    | some ⟨uri, .arriving⟩ =>
      match getRequestHandler s.reg.mem s.reg.handlers .request uri with
      | (some (a, info), mem) =>
        some { s with
          reg := { s.reg with mem := mem }
          requests := s.requests.set i ⟨uri, .executing a info⟩ }
      | (none, mem) =>
        some { s with reg := { s.reg with mem := mem }, requests := s.requests.set i ⟨uri, .finished⟩ }
    | _ => none
  | .release i =>
    match s.requests[i]? with
    | some ⟨uri, .executing a _⟩ =>
      some { s with
        reg := { s.reg with mem := releaseHandlerRef s.reg.mem (some a) }
        requests := s.requests.set i ⟨uri, .finished⟩ }
    | _ => none

/-- A server before its first handler is set. -/
def initial : SharedRegistry := ⟨⟨[], none⟩, [], []⟩

end SharedRegistry

def HandlerInfo.key (info : HandlerInfo) : HandlerType × List Byte := (info.handlerType, info.uri)

/-- The callback of a request handler, with its data. -/
def HandlerInfo.callback (info : HandlerInfo) : Pointer × Pointer := (info.handler, info.cbdata)

def HandlerArgs.callback (args : HandlerArgs) : Pointer × Pointer := (args.handler, args.cbdata)

/-- The entry that a request has acquired. -/
def Requester.entry (r : Requester) : Option Addr :=
  match r.pc with
  | .executing a _ => some a
  | _ => none

def SharedRegistry.executing (s : SharedRegistry) (a : Addr) : Nat :=
  s.requests.countP fun r => r.entry == some a

/-- The invariant over list, references and requests: the list is a map, the references are counted, and
what a request executes stands in its entry. -/
structure RegistryInv (s : SharedRegistry) (entries : List (Addr × HandlerInfo)) : Prop where
  chain : Chain s.reg.mem s.reg.handlers entries
  keys : (entries.map fun e => e.2.key).Nodup
  refs : ∀ e ∈ entries, e.2.refcount = s.executing e.1
  held : ∀ r ∈ s.requests, ∀ a given, r.pc = .executing a given →
    ∃ info, (a, info) ∈ entries ∧ info.handlerType = .request ∧ info.uri = given.uri ∧
      info.callback = given.callback

/-- Two values of an entry between which it was neither updated nor freed. -/
def SameHandler (info info' : HandlerInfo) : Prop :=
  info'.key = info.key ∧ info'.callback = info.callback

theorem sameHandler_addRefs (n : Int) (info : HandlerInfo) : SameHandler info (info.addRefs n) :=
  ⟨rfl, rfl⟩

theorem update_key (args : HandlerArgs) (info : HandlerInfo) :
    (args.update info).key = info.key ∧ (args.update info).refcount = info.refcount := by
  unfold HandlerArgs.update HandlerInfo.key
  cases args.handlerType <;> exact ⟨rfl, rfl⟩

theorem newEntry_key (args : HandlerArgs) :
    args.newEntry.key = (args.handlerType, args.uri) ∧ args.newEntry.refcount = 0 := by
  unfold HandlerArgs.newEntry
  obtain ⟨hkey, href⟩ := update_key args ⟨args.uri, args.handlerType, 0, 0, false, 0, 0, 0, 0, 0, 0, 0⟩
  exact ⟨hkey, href⟩

theorem names_iff (args : HandlerArgs) (info : HandlerInfo) :
    args.names info = true ↔ info.key = (args.handlerType, args.uri) := by
  unfold HandlerArgs.names HandlerInfo.key
  simp only [Bool.and_eq_true, beq_iff_eq, Prod.mk.injEq]
  constructor
  · rintro ⟨⟨htype, -⟩, huri⟩
    exact ⟨htype, huri⟩
  · rintro ⟨htype, huri⟩
    exact ⟨⟨htype, congrArg List.length huri.symm⟩, huri⟩

/-- No entry was updated, freed or made. -/
def Kept (entries entries' : List (Addr × HandlerInfo)) : Prop :=
  (∀ a info, (a, info) ∈ entries → ∃ info', (a, info') ∈ entries' ∧ SameHandler info info') ∧
    ∀ a info', (a, info') ∈ entries' → ∃ info, (a, info) ∈ entries ∧ SameHandler info info'

theorem kept_refl (entries : List (Addr × HandlerInfo)) : Kept entries entries :=
  ⟨fun _ info h => ⟨info, h, rfl, rfl⟩, fun _ info h => ⟨info, h, rfl, rfl⟩⟩

theorem kept_modify (entries : List (Addr × HandlerInfo)) (a : Addr) (f : HandlerInfo → HandlerInfo)
    (hf : ∀ info, SameHandler info (f info)) :
    Kept entries (entries.map fun e => if e.1 = a then (e.1, f e.2) else e) := by
  constructor
  · intro b info hmem
    by_cases hb : b = a
    · exact ⟨f info, List.mem_map.mpr ⟨(b, info), hmem, if_pos hb⟩, hf info⟩
    · exact ⟨info, List.mem_map.mpr ⟨(b, info), hmem, if_neg hb⟩, rfl, rfl⟩
  · intro b info' hmem
    obtain ⟨⟨c, info⟩, hc, heq⟩ := List.mem_map.mp hmem
    dsimp only at heq
    split_ifs at heq with hca
    · rw [Prod.mk.injEq] at heq
      obtain ⟨rfl, rfl⟩ := heq
      exact ⟨info, hc, hf info⟩
    · rw [Prod.mk.injEq] at heq
      obtain ⟨rfl, rfl⟩ := heq
      exact ⟨info, hc, rfl, rfl⟩

namespace RegistryInv

variable (s : SharedRegistry) (entries : List (Addr × HandlerInfo))

theorem entries_eq (h : RegistryInv s entries) : s.reg.entries = entries := by
  unfold Registry.entries
  rw [(listAt_eq s.reg.mem s.reg.handlers entries).mpr h.chain]
  rfl

/-- There is one value at an address. -/
theorem unique (h : RegistryInv s entries) (a : Addr) (info info' : HandlerInfo)
    (hmem : (a, info) ∈ entries) (hmem' : (a, info') ∈ entries) : info = info' := by
  obtain ⟨next, hread⟩ := h.chain.read s.reg.mem s.reg.handlers entries a info hmem
  obtain ⟨next', hread'⟩ := h.chain.read s.reg.mem s.reg.handlers entries a info' hmem'
  rw [hread, Option.some.injEq, Cell.mk.injEq] at hread'
  exact hread'.1

/-- An entry that a setter may change or free is not in use. -/
theorem idle (h : RegistryInv s entries) (args : HandlerArgs) (a : Addr) (info : HandlerInfo)
    (hmem : (a, info) ∈ entries) (hnames : args.names info = true)
    (hidle : args.handlerType = .request → info.refcount = 0) (r : Requester) (hr : r ∈ s.requests)
    (given : HandlerInfo) : r.pc ≠ .executing a given := by
  intro hpc
  obtain ⟨info', hmem', htype, -, -⟩ := h.held r hr a given hpc
  have hsame := h.unique s entries a info info' hmem hmem'
  rw [names_iff, HandlerInfo.key, Prod.mk.injEq] at hnames
  have hreq : args.handlerType = .request := by rw [← hnames.1, hsame, htype]
  have hcount := h.refs (a, info) hmem
  rw [hidle hreq] at hcount
  have hpos : 0 < s.executing a := by
    apply List.countP_pos_iff.mpr
    exact ⟨r, hr, by simp [Requester.entry, hpc]⟩
  dsimp only at hcount
  omega

/-- A change of one entry that is no update keeps the invariant, where the references stay right. -/
theorem modify (h : RegistryInv s entries) (t : SharedRegistry) (a : Addr)
    (f : HandlerInfo → HandlerInfo) (hf : ∀ info, SameHandler info (f info))
    (hmem : t.reg.mem = modifyValue s.reg.mem a f) (hhandlers : t.reg.handlers = s.reg.handlers)
    (hrefs : ∀ e ∈ entries, (if e.1 = a then f e.2 else e.2).refcount = t.executing e.1)
    (hheld : ∀ r ∈ t.requests, ∀ b given, r.pc = .executing b given →
      ∃ info, (b, info) ∈ entries ∧ info.handlerType = .request ∧ info.uri = given.uri ∧
        info.callback = given.callback) :
    RegistryInv t (entries.map fun e => if e.1 = a then (e.1, f e.2) else e) := by
  have hentry (e : Addr × HandlerInfo) :
      (if e.1 = a then (e.1, f e.2) else e) = (e.1, if e.1 = a then f e.2 else e.2) := by
    split_ifs <;> rfl
  have hsame (e : Addr × HandlerInfo) : SameHandler e.2 (if e.1 = a then f e.2 else e.2) := by
    split_ifs
    · exact hf e.2
    · exact ⟨rfl, rfl⟩
  simp only [hentry]
  refine ⟨?_, ?_, ?_, ?_⟩
  · have hchain := h.chain.modifyValue s.reg.mem s.reg.handlers entries a f
    simp only [hentry] at hchain
    rw [hmem, hhandlers]
    exact hchain
  · have hkeys : (entries.map fun e => (e.1, if e.1 = a then f e.2 else e.2)).map (fun e => e.2.key) =
        entries.map fun e => e.2.key := by
      rw [List.map_map]
      apply List.map_congr_left
      intro e _
      exact (hsame e).1
    rw [hkeys]
    exact h.keys
  · intro x hx
    obtain ⟨e, he, rfl⟩ := List.mem_map.mp hx
    exact hrefs e he
  · intro r hr b given hpc
    obtain ⟨info, hb, htype, huri, hcallback⟩ := hheld r hr b given hpc
    obtain ⟨hkey, hcb⟩ := hsame (b, info)
    rw [HandlerInfo.key, HandlerInfo.key, Prod.mk.injEq] at hkey
    exact ⟨_, List.mem_map_of_mem hb, hkey.1.trans htype, hkey.2.trans huri, hcb.trans hcallback⟩

/-- One entry is changed, and keeps its key and its references; its callback stays if it is in use. -/
theorem replace (h : RegistryInv s entries) (t : SharedRegistry) (front back : List (Addr × HandlerInfo))
    (a : Addr) (info info' : HandlerInfo) (hsplit : entries = front ++ (a, info) :: back)
    (hrequests : t.requests = s.requests)
    (hchain : Chain t.reg.mem t.reg.handlers (front ++ (a, info') :: back)) (hkey : info'.key = info.key)
    (hrefcount : info'.refcount = info.refcount)
    (hcallback : (∃ r ∈ s.requests, ∃ given, r.pc = .executing a given) → info'.callback = info.callback) :
    RegistryInv t (front ++ (a, info') :: back) := by
  have hexecuting (b : Addr) : t.executing b = s.executing b := by
    unfold SharedRegistry.executing
    rw [hrequests]
  have hmem (e : Addr × HandlerInfo) : e ∈ front ++ (a, info') :: back ↔
      e ∈ front ∨ e = (a, info') ∨ e ∈ back := by
    rw [List.mem_append, List.mem_cons]
  have hmem' (e : Addr × HandlerInfo) : e ∈ entries ↔ e ∈ front ∨ e = (a, info) ∨ e ∈ back := by
    rw [hsplit, List.mem_append, List.mem_cons]
  refine ⟨hchain, ?_, ?_, ?_⟩
  · have hkeys := h.keys
    rw [hsplit, List.map_append, List.map_cons] at hkeys
    rw [List.map_append, List.map_cons, hkey]
    exact hkeys
  · intro e he
    rw [hexecuting]
    rcases (hmem e).mp he with he | rfl | he
    · exact h.refs e ((hmem' e).mpr (Or.inl he))
    · dsimp only
      rw [hrefcount]
      exact h.refs (a, info) ((hmem' _).mpr (Or.inr (Or.inl rfl)))
    · exact h.refs e ((hmem' e).mpr (Or.inr (Or.inr he)))
  · intro r hr b given hpc
    rw [hrequests] at hr
    obtain ⟨x, hx, htype, huri, hcb⟩ := h.held r hr b given hpc
    rcases (hmem' _).mp hx with hin | heq | hin
    · exact ⟨x, (hmem _).mpr (Or.inl hin), htype, huri, hcb⟩
    · rw [Prod.mk.injEq] at heq
      obtain ⟨rfl, rfl⟩ := heq
      rw [HandlerInfo.key, HandlerInfo.key, Prod.mk.injEq] at hkey
      refine ⟨info', (hmem _).mpr (Or.inr (Or.inl rfl)), hkey.1.trans htype, hkey.2.trans huri, ?_⟩
      rw [hcallback ⟨r, hr, given, hpc⟩, hcb]
    · exact ⟨x, (hmem _).mpr (Or.inr (Or.inr hin)), htype, huri, hcb⟩

/-- A round of a setter keeps the invariant. -/
theorem effect (h : RegistryInv s entries) (t : SharedRegistry) (args : HandlerArgs)
    (calloc : Option Addr) (returned : Bool) (entries' : List (Addr × HandlerInfo))
    (heffect : RoundEffect args calloc entries returned entries')
    (hfresh : ∀ a, calloc = some a → read s.reg.mem a = none) (hrequests : t.requests = s.requests)
    (hchain : Chain t.reg.mem t.reg.handlers entries') : RegistryInv t entries' := by
  have hexecuting (b : Addr) : t.executing b = s.executing b := by
    unfold SharedRegistry.executing
    rw [hrequests]
  have hkeep (hchain : Chain t.reg.mem t.reg.handlers entries) : RegistryInv t entries := by
    refine ⟨hchain, h.keys, ?_, ?_⟩
    · intro e he
      rw [hexecuting]
      exact h.refs e he
    · intro r hr
      rw [hrequests] at hr
      exact h.held r hr
  cases heffect with
  | wait => exact hkeep hchain
  | absent => exact hkeep hchain
  | mark front back a info hfirst =>
    exact h.replace s entries t front back a info info.markRemoving hfirst.split hrequests hchain rfl rfl
      fun _ => rfl
  | update front back a info hfirst _ hidle =>
    obtain ⟨hsplit, -, hnames⟩ := hfirst
    obtain ⟨hkey, hrefcount⟩ := update_key args info
    apply h.replace s entries t front back a info (args.update info) hsplit hrequests hchain hkey hrefcount
    rintro ⟨r, hr, given, hpc⟩
    exact (h.idle s entries args a info (by rw [hsplit]; simp) hnames hidle r hr given hpc).elim
  | remove front back a info hfirst _ hidle =>
    obtain ⟨hsplit, -, hnames⟩ := hfirst
    have hsub : (front ++ back).Sublist entries := by
      rw [hsplit]
      exact List.Sublist.append_left (List.sublist_cons_self (a, info) back) front
    refine ⟨hchain, h.keys.sublist (hsub.map _), ?_, ?_⟩
    · intro e he
      rw [hexecuting]
      exact h.refs e (hsub.subset he)
    · intro r hr b given hpc
      rw [hrequests] at hr
      obtain ⟨x, hx, hrest⟩ := h.held r hr b given hpc
      refine ⟨x, ?_, hrest⟩
      rw [hsplit, List.mem_append, List.mem_cons] at hx
      rcases hx with hx | heq | hx
      · exact List.mem_append_left back hx
      · rw [Prod.mk.injEq] at heq
        obtain ⟨rfl, rfl⟩ := heq
        exact (h.idle s entries args b x (by rw [hsplit]; simp) hnames hidle r hr given hpc).elim
      · exact List.mem_append_right front hx
  | insert a hnew _ hcalloc =>
    have hnotin : ∀ x, (a, x) ∉ entries := by
      intro x hx
      obtain ⟨next, hread⟩ := h.chain.read s.reg.mem s.reg.handlers entries a x hx
      rw [hfresh a hcalloc] at hread
      cases hread
    obtain ⟨hkey, hrefcount⟩ := newEntry_key args
    refine ⟨hchain, ?_, ?_, ?_⟩
    · rw [List.map_append, List.map_singleton]
      apply List.Nodup.append h.keys (List.nodup_singleton _)
      intro k hk hk'
      obtain ⟨e, he, rfl⟩ := List.mem_map.mp hk
      rw [List.mem_singleton, hkey, ← names_iff, hnew e he] at hk'
      cases hk'
    · intro e he
      rw [hexecuting]
      rcases List.mem_append.mp he with he | he
      · exact h.refs e he
      · rw [List.mem_singleton] at he
        subst he
        dsimp only
        rw [hrefcount]
        symm
        rw [Int.natCast_eq_zero]
        unfold SharedRegistry.executing
        rw [List.countP_eq_zero]
        intro r hr hentry
        rw [beq_iff_eq] at hentry
        cases hpc : r.pc with
        | executing b given =>
          rw [Requester.entry, hpc, Option.some.injEq] at hentry
          obtain ⟨x, hx, -⟩ := h.held r hr b given hpc
          exact hnotin x (hentry ▸ hx)
        | arriving =>
          rw [Requester.entry, hpc] at hentry
          cases hentry
        | finished =>
          rw [Requester.entry, hpc] at hentry
          cases hentry
    · intro r hr b given hpc
      rw [hrequests] at hr
      obtain ⟨x, hx, hrest⟩ := h.held r hr b given hpc
      exact ⟨x, List.mem_append_left _ hx, hrest⟩

theorem executing_set (i : Nat) (r r' : Requester) (reg : Registry) (hget : s.requests[i]? = some r)
    (a : Addr) :
    ((SharedRegistry.executing ⟨reg, s.setters, s.requests.set i r'⟩ a : Nat) : Int) =
      s.executing a + oneFor r'.entry a - oneFor r.entry a := by
  have hone (x : Requester) : (oneFor x.entry a : Int) = if x.entry == some a then 1 else 0 := by
    unfold oneFor
    simp only [beq_iff_eq]
  rw [hone, hone]
  exact countP_exchange s.requests i r r' (fun x => x.entry == some a) hget

/-- A request that has nothing stays without references. -/
theorem requests (h : RegistryInv s entries) (t : SharedRegistry) (hreg : t.reg = s.reg)
    (hexecuting : ∀ a, t.executing a = s.executing a)
    (hheld : ∀ r ∈ t.requests, ∀ a given, r.pc = .executing a given → r ∈ s.requests) :
    RegistryInv t entries := by
  refine ⟨?_, h.keys, ?_, ?_⟩
  · rw [hreg]
    exact h.chain
  · intro e he
    rw [hexecuting]
    exact h.refs e he
  · intro r hr a given hpc
    exact h.held r (hheld r hr a given hpc) a given hpc

/-- A reference taken or given back is counted. -/
theorem recount (h : RegistryInv s entries) (i : Nat) (r r' : Requester) (a : Addr) (n : Int)
    (hget : s.requests[i]? = some r)
    (hcount : ∀ b, oneFor r'.entry b - oneFor r.entry b = n * oneFor (some a) b)
    (hnew : ∀ b given, r'.pc = .executing b given →
      ∃ info, (b, info) ∈ entries ∧ info.handlerType = .request ∧ info.uri = given.uri ∧
        info.callback = given.callback) :
    ∃ entries', RegistryInv ⟨⟨modifyValue s.reg.mem a (HandlerInfo.addRefs n), s.reg.handlers⟩, s.setters,
      s.requests.set i r'⟩ entries' ∧ Kept entries entries' := by
  have hset := executing_set s i r r'
    ⟨modifyValue s.reg.mem a (HandlerInfo.addRefs n), s.reg.handlers⟩ hget
  refine ⟨_, h.modify s entries _ a (HandlerInfo.addRefs n) (sameHandler_addRefs n) rfl rfl ?_ ?_,
    kept_modify entries a (HandlerInfo.addRefs n) (sameHandler_addRefs n)⟩
  · intro x hx
    rw [hset x.1]
    have hrefs := h.refs x hx
    have hx' := hcount x.1
    by_cases ha : x.1 = a
    · have hone : oneFor (some a) x.1 = 1 := if_pos (congrArg some ha.symm)
      have hadd : (x.2.addRefs n).refcount = x.2.refcount + n := rfl
      rw [if_pos ha, hadd, hrefs]
      rw [hone, mul_one] at hx'
      omega
    · have hzero : oneFor (some a) x.1 = 0 := if_neg (fun heq => ha (Option.some.inj heq).symm)
      rw [if_neg ha, hrefs]
      rw [hzero, mul_zero] at hx'
      omega
  · intro x hx b given hpc
    rcases List.mem_or_eq_of_mem_set hx with hx | rfl
    · exact h.held x hx b given hpc
    · exact hnew b given hpc

theorem acquire (h : RegistryInv s entries) (t : SharedRegistry) (i : Nat)
    (hstep : s.step (.acquire i) = some t) :
    ∃ entries', RegistryInv t entries' ∧ Kept entries entries' := by
  unfold SharedRegistry.step at hstep
  dsimp only at hstep
  cases hget : s.requests[i]? with
  | none =>
    rw [hget] at hstep
    cases hstep
  | some r =>
    obtain ⟨uri, pc⟩ := r
    cases pc with
    | executing a given =>
      rw [hget] at hstep
      cases hstep
    | finished =>
      rw [hget] at hstep
      cases hstep
    | arriving =>
      rw [hget] at hstep
      dsimp only at hstep
      rw [getRequestHandler_eq] at hstep
      have hgiven := givenHandler_mem s.reg.mem s.reg.handlers .request uri
      cases hfound : givenHandler s.reg.mem s.reg.handlers .request uri with
      | none =>
        rw [hfound] at hstep
        dsimp only [takenRef] at hstep
        rw [if_pos rfl, Option.map_none, Option.some.injEq] at hstep
        subst hstep
        refine ⟨entries, ?_, kept_refl entries⟩
        apply h.requests s entries
        · rfl
        · intro a
          have hset := executing_set s i ⟨uri, .arriving⟩ ⟨uri, .finished⟩ s.reg hget a
          have hsame : oneFor (Requester.entry ⟨uri, .finished⟩) a =
              oneFor (Requester.entry ⟨uri, .arriving⟩) a := rfl
          rw [hsame, add_sub_cancel_right] at hset
          exact Int.natCast_inj.mp hset
        · intro x hx a given hpc
          rcases List.mem_or_eq_of_mem_set hx with hx | rfl
          · exact hx
          · cases hpc
      | some e =>
        obtain ⟨a, info⟩ := e
        obtain ⟨hmem, htype⟩ := hgiven (a, info) hfound
        have hentries := h.entries_eq s entries
        unfold Registry.entries at hentries
        rw [hentries] at hmem
        rw [hfound] at hstep
        dsimp only [takenRef] at hstep
        rw [if_pos rfl, Option.map_some, Option.some.injEq] at hstep
        subst hstep
        apply h.recount s entries i ⟨uri, .arriving⟩ ⟨uri, .executing a info⟩ a 1 hget
        · intro b
          have hnone : oneFor (Requester.entry ⟨uri, .arriving⟩) b = 0 := if_neg (by simp [Requester.entry])
          rw [hnone, sub_zero, one_mul]
          rfl
        · intro b given hpc
          cases hpc
          exact ⟨info, hmem, htype, rfl, rfl⟩

theorem release (h : RegistryInv s entries) (t : SharedRegistry) (i : Nat)
    (hstep : s.step (.release i) = some t) :
    ∃ entries', RegistryInv t entries' ∧ Kept entries entries' := by
  unfold SharedRegistry.step at hstep
  dsimp only at hstep
  cases hget : s.requests[i]? with
  | none =>
    rw [hget] at hstep
    cases hstep
  | some r =>
    obtain ⟨uri, pc⟩ := r
    cases pc with
    | arriving =>
      rw [hget] at hstep
      cases hstep
    | finished =>
      rw [hget] at hstep
      cases hstep
    | executing a given =>
      rw [hget] at hstep
      dsimp only [releaseHandlerRef] at hstep
      rw [Option.some.injEq] at hstep
      subst hstep
      apply h.recount s entries i ⟨uri, .executing a given⟩ ⟨uri, .finished⟩ a (-1) hget
      · intro b
        have hnone : oneFor (Requester.entry ⟨uri, .finished⟩) b = 0 := if_neg (by simp [Requester.entry])
        rw [hnone, zero_sub, neg_one_mul]
        rfl
      · intro b x hpc
        cases hpc

/-- A round of a setter has its effect on the entries. -/
theorem round (h : RegistryInv s entries) (t : SharedRegistry) (i : Nat) (calloc : Option Addr)
    (hstep : s.step (.round i calloc) = some t) :
    ∃ args entries', s.setters[i]? = some ⟨args, false⟩ ∧ RegistryInv t entries' ∧
      t.requests = s.requests ∧
      t.setters = s.setters.set i ⟨args, (s.reg.setHandlerRound args calloc).1⟩ ∧
      RoundEffect args calloc entries (s.reg.setHandlerRound args calloc).1 entries' := by
  unfold SharedRegistry.step at hstep
  dsimp only at hstep
  cases hget : s.setters[i]? with
  | none =>
    rw [hget] at hstep
    cases hstep
  | some setter =>
    obtain ⟨args, returned⟩ := setter
    cases returned with
    | true =>
      rw [hget] at hstep
      cases hstep
    | false =>
      rw [hget] at hstep
      dsimp only at hstep
      split_ifs at hstep with hused
      rw [Option.some.injEq] at hstep
      have hfresh : ∀ a, calloc = some a → read s.reg.mem a = none := by
        rintro a rfl
        simpa using hused
      obtain ⟨entries', heffect, hchain⟩ :=
        setHandlerRound_effect s.reg args calloc entries h.chain hfresh
      subst hstep
      exact ⟨args, entries', rfl, h.effect s entries _ args calloc _ entries' heffect hfresh rfl hchain, rfl,
        rfl, heffect⟩

/-- What a step does to the entries: a round of a setter has its effect, every other step keeps all of
them. -/
theorem step (h : RegistryInv s entries) (t : SharedRegistry) (label : RegistryLabel)
    (hstep : s.step label = some t) :
    ∃ entries', RegistryInv t entries' ∧
      ((∃ i calloc args, label = .round i calloc ∧ s.setters[i]? = some ⟨args, false⟩ ∧
          t.requests = s.requests ∧
          RoundEffect args calloc entries (s.reg.setHandlerRound args calloc).1 entries') ∨
        Kept entries entries') := by
  cases label with
  | call args =>
    rw [SharedRegistry.step, Option.some.injEq] at hstep
    subst hstep
    exact ⟨entries, h.requests s entries _ rfl (fun _ => rfl) fun r hr _ _ _ => hr,
      Or.inr (kept_refl entries)⟩
  | arrive uri =>
    rw [SharedRegistry.step, Option.some.injEq] at hstep
    subst hstep
    refine ⟨entries, ?_, Or.inr (kept_refl entries)⟩
    apply h.requests s entries
    · rfl
    · intro a
      simp [SharedRegistry.executing, Requester.entry]
    · intro r hr a given hpc
      rcases List.mem_append.mp hr with hr | hr
      · exact hr
      · rw [List.mem_singleton.mp hr] at hpc
        cases hpc
  | acquire i =>
    obtain ⟨entries', hinv, hkept⟩ := h.acquire s entries t i hstep
    exact ⟨entries', hinv, Or.inr hkept⟩
  | release i =>
    obtain ⟨entries', hinv, hkept⟩ := h.release s entries t i hstep
    exact ⟨entries', hinv, Or.inr hkept⟩
  | round i calloc =>
    obtain ⟨args, entries', hget, hinv, hrequests, -, heffect⟩ := h.round s entries t i calloc hstep
    exact ⟨entries', hinv, Or.inl ⟨i, calloc, args, rfl, hget, hrequests, heffect⟩⟩

end RegistryInv

/-- A round that puts a callback into the entry for a URI. -/
def Registers (uri : List Byte) (callback : Pointer × Pointer) (s : SharedRegistry)
    (label : RegistryLabel) : Prop :=
  ∃ i calloc args, label = .round i calloc ∧ s.setters[i]? = some ⟨args, false⟩ ∧
    (s.reg.setHandlerRound args calloc).1 = true ∧ args.isDeleteRequest = false ∧
    (args.handlerType, args.uri) = (HandlerType.request, uri) ∧ args.callback = callback

/-- No request executes the callback of the entry for the URI. -/
def NotExecuting (uri : List Byte) (callback : Pointer × Pointer) (s : SharedRegistry) : Prop :=
  ∀ r ∈ s.requests, ∀ a given, r.pc = .executing a given → given.uri = uri → given.callback ≠ callback

/-- The entry for the URI, if there is one, has another callback. -/
def Unregistered (uri : List Byte) (callback : Pointer × Pointer) (entries : List (Addr × HandlerInfo)) :
    Prop :=
  ∀ e ∈ entries, e.2.key = (.request, uri) → e.2.callback ≠ callback

theorem update_callback (args : HandlerArgs) (info : HandlerInfo) (h : args.handlerType = .request) :
    (args.update info).callback = args.callback := by
  unfold HandlerArgs.update
  rw [h]
  rfl

theorem Unregistered.effect (uri : List Byte) (callback : Pointer × Pointer) (args : HandlerArgs)
    (calloc : Option Addr) (returned : Bool) (entries entries' : List (Addr × HandlerInfo))
    (h : Unregistered uri callback entries)
    (heffect : RoundEffect args calloc entries returned entries')
    (hother : returned = true → args.isDeleteRequest = false →
      (args.handlerType, args.uri) = (HandlerType.request, uri) → args.callback ≠ callback) :
    Unregistered uri callback entries' := by
  cases heffect with
  | wait => exact h
  | absent => exact h
  | mark front back a info hfirst =>
    intro e he hkey
    have hmem (x : Addr × HandlerInfo) (hx : x ∈ front ++ (a, info) :: back) := h x (hfirst.split ▸ hx)
    rw [List.mem_append, List.mem_cons] at he
    rcases he with he | rfl | he
    · exact hmem e (List.mem_append_left _ he) hkey
    · exact hmem (a, info) (by simp) hkey
    · exact hmem e (by simp [he]) hkey
  | update front back a info hfirst hset _ =>
    obtain ⟨hsplit, -, hnames⟩ := hfirst
    intro e he hkey
    have hmem (x : Addr × HandlerInfo) (hx : x ∈ front ++ (a, info) :: back) := h x (hsplit ▸ hx)
    rw [List.mem_append, List.mem_cons] at he
    rcases he with he | rfl | he
    · exact hmem e (List.mem_append_left _ he) hkey
    · rw [(update_key args info).1, (names_iff args info).mp hnames] at hkey
      rw [update_callback args info (Prod.mk.inj hkey).1]
      exact hother rfl hset hkey
    · exact hmem e (by simp [he]) hkey
  | remove front back a info hfirst =>
    intro e he
    apply h e
    rw [hfirst.split]
    rw [List.mem_append] at he ⊢
    exact he.imp_right (List.mem_cons_of_mem (a, info))
  | insert a _ hset =>
    intro e he hkey
    rcases List.mem_append.mp he with he | he
    · exact h e he hkey
    · rw [List.mem_singleton] at he
      subst he
      rw [(newEntry_key args).1] at hkey
      unfold HandlerArgs.newEntry
      rw [update_callback args _ (Prod.mk.inj hkey).1]
      exact hother rfl hset hkey

/-- A call that returns has replaced or removed the callback of the entry it found. -/
theorem Unregistered.of_return (args : HandlerArgs) (calloc : Option Addr)
    (entries entries' : List (Addr × HandlerInfo)) (a : Addr) (info : HandlerInfo)
    (heffect : RoundEffect args calloc entries true entries') (hkeys : (entries.map fun e => e.2.key).Nodup)
    (hmem : (a, info) ∈ entries) (hnames : args.names info = true) (htype : args.handlerType = .request)
    (hother : args.isDeleteRequest = false → args.callback ≠ info.callback) :
    Unregistered args.uri info.callback entries' := by
  have hkey := (names_iff args info).mp hnames
  -- the entries beside the one for the key have other keys
  have hbeside (front back : List (Addr × HandlerInfo)) (b : Addr) (x : HandlerInfo)
      (hsplit : entries = front ++ (b, x) :: back) (hx : args.names x = true) :
      x = info ∧ ∀ e ∈ front ++ back, e.2.key ≠ x.key := by
    rw [hsplit, List.map_append, List.map_cons] at hkeys
    obtain ⟨-, htail, hdisj⟩ := List.nodup_append.mp hkeys
    have hne : ∀ e ∈ front ++ back, e.2.key ≠ x.key := by
      intro e he heq
      rcases List.mem_append.mp he with he | he
      · exact hdisj _ (List.mem_map_of_mem he) _ List.mem_cons_self heq
      · exact (List.nodup_cons.mp htail).1 (heq ▸ List.mem_map_of_mem he)
    refine ⟨?_, hne⟩
    rw [hsplit, List.mem_append, List.mem_cons] at hmem
    rw [names_iff] at hx
    rcases hmem with hmem | heq | hmem
    · exact (hne _ (List.mem_append_left back hmem) (hkey.trans hx.symm)).elim
    · exact (Prod.mk.inj heq).2.symm
    · exact (hne _ (List.mem_append_right front hmem) (hkey.trans hx.symm)).elim
  cases heffect with
  | absent hnone =>
    rw [hnone (a, info) hmem] at hnames
    cases hnames
  | insert b hnone =>
    rw [hnone (a, info) hmem] at hnames
    cases hnames
  | update front back b x hfirst hset _ =>
    obtain ⟨rfl, hne⟩ := hbeside front back b x hfirst.split hfirst.names
    intro e he hekey
    rw [List.mem_append, List.mem_cons] at he
    rw [← htype, ← hkey] at hekey
    rcases he with he | rfl | he
    · exact (hne e (List.mem_append_left back he) hekey).elim
    · rw [update_callback args x htype]
      exact hother hset
    · exact (hne e (List.mem_append_right front he) hekey).elim
  | remove front back b x hfirst =>
    obtain ⟨rfl, hne⟩ := hbeside front back b x hfirst.split hfirst.names
    intro e he hekey
    rw [← htype, ← hkey] at hekey
    exact (hne e he hekey).elim

theorem initial_inv : RegistryInv SharedRegistry.initial [] :=
  ⟨Chain.nil, List.nodup_nil, by simp, by simp [SharedRegistry.initial]⟩

theorem run_inv (labels : List RegistryLabel) (s : SharedRegistry)
    (hrun : System.run SharedRegistry.step SharedRegistry.initial labels = some s) :
    ∃ entries, RegistryInv s entries := by
  apply System.run_invariant SharedRegistry.step (fun s => ∃ entries, RegistryInv s entries) _ _ s labels
    ⟨[], initial_inv⟩ hrun
  rintro s label t ⟨entries, h⟩ hstep
  obtain ⟨entries', h', -⟩ := h.step s entries t label hstep
  exact ⟨entries', h'⟩

/-- What a call replaced or removed is not executed until it is registered again. -/
theorem notExecuting_always (uri : List Byte) (callback : Pointer × Pointer) (s : SharedRegistry)
    (entries : List (Addr × HandlerInfo)) (h : RegistryInv s entries)
    (hun : Unregistered uri callback entries) (labels : List RegistryLabel)
    (hok : System.Along SharedRegistry.step (fun s label => ¬ Registers uri callback s label) s labels) :
    System.Always SharedRegistry.step (NotExecuting uri callback) s labels := by
  apply System.Always.imp SharedRegistry.step
    (fun s => ∃ entries, RegistryInv s entries ∧ Unregistered uri callback entries)
  · rintro s ⟨entries, h, hun⟩ r hr a given hpc huri
    obtain ⟨info, hmem, htype, hsame, hcallback⟩ := h.held r hr a given hpc
    rw [← hcallback]
    apply hun (a, info) hmem
    unfold HandlerInfo.key
    rw [htype, hsame, huri]
  · apply System.always_of_invariant SharedRegistry.step _
      (fun s label => ¬ Registers uri callback s label) _ s labels ⟨entries, h, hun⟩ hok
    rintro s label t ⟨entries, h, hun⟩ hnot hstep
    obtain ⟨entries', h', hround | hkept⟩ := h.step s entries t label hstep
    · obtain ⟨i, calloc, args, rfl, hget, -, heffect⟩ := hround
      refine ⟨entries', h', hun.effect uri callback args calloc _ entries entries' heffect ?_⟩
      intro hreturned hset hkey hsame
      exact hnot ⟨i, calloc, args, rfl, hget, hreturned, hset, hkey, hsame⟩
    · refine ⟨entries', h', ?_⟩
      rintro ⟨a, info'⟩ hmem hkey
      obtain ⟨info, hin, hkey', hcallback⟩ := hkept.2 a info' hmem
      dsimp only at hkey ⊢
      rw [hcallback]
      exact hun (a, info) hin (hkey'.symm.trans hkey)

/-- The handlers of a domain in any interleaving of setters and requests. -/
theorem registry_safe (labels : List RegistryLabel) (s : SharedRegistry)
    (hrun : System.run SharedRegistry.step SharedRegistry.initial labels = some s) :
    (s.reg.entries.map fun e => e.2.key).Nodup ∧
    (∀ label t, s.step label = some t → ∀ r ∈ s.requests, ∀ a given, r.pc = .executing a given →
      ∃ info info', (a, info) ∈ s.reg.entries ∧ info.callback = given.callback ∧
        (a, info') ∈ t.reg.entries ∧ SameHandler info info') ∧
    (∀ i calloc args t, s.setters[i]? = some ⟨args, false⟩ → s.step (.round i calloc) = some t →
      t.setters[i]? = some ⟨args, true⟩ → args.handlerType = .request →
      ∀ a info, (a, info) ∈ s.reg.entries → args.names info = true →
      (args.isDeleteRequest = false → args.callback ≠ info.callback) →
      ∀ labels', System.Along SharedRegistry.step
          (fun s label => ¬ Registers args.uri info.callback s label) t labels' →
        System.Always SharedRegistry.step (NotExecuting args.uri info.callback) t labels') ∧
    ∀ handlerType uri, ∃ found, Lookup s.reg.entries handlerType uri found ∧
      (getRequestHandler s.reg.mem s.reg.handlers handlerType uri).1 =
        found.filter fun e => !(handlerType == .request && e.2.removing) := by
  obtain ⟨entries, h⟩ := run_inv labels s hrun
  have hentries := h.entries_eq s entries
  refine ⟨?_, ?_, ?_, ?_⟩
  · rw [hentries]
    exact h.keys
  · intro label t hstep r hr a given hpc
    obtain ⟨entries', h', hround | hkept⟩ := h.step s entries t label hstep
    · obtain ⟨i, calloc, args, rfl, -, hrequests, -⟩ := hround
      obtain ⟨info, hmem, htype, huri, hcallback⟩ := h.held r hr a given hpc
      obtain ⟨info', hmem', htype', huri', hcallback'⟩ := h'.held r (hrequests ▸ hr) a given hpc
      rw [hentries, h'.entries_eq t entries']
      refine ⟨info, info', hmem, hcallback, hmem', ?_, hcallback'.trans hcallback.symm⟩
      unfold HandlerInfo.key
      rw [htype, htype', huri, huri']
    · obtain ⟨info, hmem, -, -, hcallback⟩ := h.held r hr a given hpc
      obtain ⟨info', hmem', hsame⟩ := hkept.1 a info hmem
      rw [hentries, h'.entries_eq t entries']
      exact ⟨info, info', hmem, hcallback, hmem', hsame⟩
  · intro i calloc args t hget hstep hreturned htype a info hmem hnames hother labels' hok
    rw [hentries] at hmem
    obtain ⟨args', entries', hget', h', -, hsetters, heffect⟩ := h.round s entries t i calloc hstep
    rw [hget, Option.some.injEq, SetterThread.mk.injEq] at hget'
    obtain ⟨rfl, -⟩ := hget'
    obtain ⟨hlt, -⟩ := List.getElem?_eq_some_iff.mp hget
    rw [hsetters, List.getElem?_set_self hlt, Option.some.injEq, SetterThread.mk.injEq] at hreturned
    rw [hreturned.2] at heffect
    exact notExecuting_always args.uri info.callback t entries' h'
      (Unregistered.of_return args calloc entries entries' a info heffect h.keys hmem hnames htype hother)
      labels' hok
  · intro handlerType uri
    refine ⟨_, findHandler_lookup s.reg.entries handlerType uri, ?_⟩
    rw [getRequestHandler_eq]
    unfold givenHandler Registry.entries
    cases findHandler ((listAt s.reg.mem s.reg.handlers).getD []) handlerType uri with
    | none => rfl
    | some e =>
      dsimp only [Option.filter]
      have htest : (!(handlerType == .request && e.2.removing)) = true ↔
          ¬ (handlerType = .request ∧ e.2.removing = true) := by
        rw [Bool.not_eq_true', ← Bool.not_eq_true, Bool.and_eq_true, beq_iff_eq]
      by_cases hgone : handlerType = .request ∧ e.2.removing = true
      · rw [if_pos hgone, if_neg (fun h => htest.mp h hgone)]
      · rw [if_neg hgone, if_pos (htest.mpr hgone)]

/-- A handler is set, a request acquires it, and a second thread begins to remove it. -/
def removingRun : List RegistryLabel :=
  [.call (mgSetRequestHandler [47, 97] 7 0), .round 0 (some 1), .arrive [47, 97], .acquire 0,
    .call (mgSetRequestHandler [47, 97] 0 0), .round 1 none]

def removingRegistry : SharedRegistry where
  reg := ⟨[(1, ⟨{ noHandler with uri := [47, 97], handler := 7, refcount := 1, removing := true }, none⟩)],
    some 1⟩
  setters := [⟨mgSetRequestHandler [47, 97] 7 0, true⟩, ⟨mgSetRequestHandler [47, 97] 0 0, false⟩]
  requests := [⟨[47, 97], .executing 1 { noHandler with uri := [47, 97], handler := 7 }⟩]

theorem registry_safe_removing :
    (removingRegistry.reg.entries.map fun e => e.2.key).Nodup ∧
    ∃ found, Lookup removingRegistry.reg.entries .request [47, 97] found ∧
      (getRequestHandler removingRegistry.reg.mem removingRegistry.reg.handlers .request [47, 97]).1 =
        found.filter fun e => !(HandlerType.request == .request && e.2.removing) :=
  ⟨(registry_safe removingRun removingRegistry rfl).1,
    (registry_safe removingRun removingRegistry rfl).2.2.2 .request [47, 97]⟩

end CivetWeb
