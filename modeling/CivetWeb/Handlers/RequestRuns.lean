import CivetWeb.Handlers.References

namespace CivetWeb

open LinkedList

/-- `handle_request` up to its next place, or its end. -/
def handleRequest (build : Build) (s : HandlerMemory × Activation) :
    (HandlerMemory × Activation) ⊕ (HandlerMemory × Action) :=
  match s.2.pc with
  | .done action => .inr (s.1, action)
  | _ => .inl (s.2.next build s.1)

def refcountOf (mem : HandlerMemory) (a : Addr) : Option Int := (read mem a).map (·.value.refcount)

/-- Requests that are being handled at the same time. -/
structure HandlerState where
  mem : HandlerMemory
  activations : List Activation

/-- A request comes in, or the thread of one goes on. -/
inductive RequestLabel where
  | arrive (input : RequestInput)
  | next (i : Nat)

def requestStep (build : Build) (s : HandlerState) (label : RequestLabel) : Option HandlerState :=
  match label with
  | .arrive input => some { s with activations := s.activations ++ [Activation.start input] }
  | .next i =>
    match s.activations[i]? with
    | none => none
    | some act =>
      let (mem, act) := act.next build s.mem
      some ⟨mem, s.activations.set i act⟩

/-- How many activations are between the acquisition of the entry and its release. -/
def HandlerState.holders (s : HandlerState) (a : Addr) : Nat :=
  s.activations.countP fun act => act.held == some a

/-- Every entry has as many references as there are activations that hold it. -/
def HandlerState.RefsHeld (s : HandlerState) : Prop :=
  ∀ a n, refcountOf s.mem a = some n → n = s.holders a

/-! ### One request -/

/-- How far `handle_request` is from its end. -/
def Activation.rank (act : Activation) : Nat :=
  match act.pc with
  | .url => 12
  | .lookup => 11
  | .webdav => if act.locals.isCallbackResource then 10 else 5
  | .authorization => if act.locals.isCallbackResource then 9 else 4
  | .resource => if act.locals.isCallbackResource then 8 else 3
  | .served _ => 7
  | .noCallbackResource => 6
  | .rejected _ => 1
  | .done _ => 0

theorem next_rank (build : Build) (mem : HandlerMemory) (act : Activation)
    (hdone : ∀ action, act.pc ≠ .done action) : (act.next build mem).2.rank < act.rank := by
  obtain ⟨input, pc, l⟩ := act
  unfold Activation.next
  cases pc with
  | url =>
    dsimp only
    cases urlAction input <;> simp [Activation.rank]
  | lookup =>
    dsimp only
    split_ifs
    · simp [Activation.rank]
    · cases hget : getRequestHandler mem input.handlers (requestHandlerType build input)
        input.localUri with
      | mk given mem' => cases given <;> simp [Activation.rank, callbackLocals]
  | noCallbackResource => simp [Activation.rank, fileLocals]
  | webdav =>
    dsimp only
    split_ifs <;> cases hcb : l.isCallbackResource <;> simp [Activation.rank, hcb]
  | authorization =>
    dsimp only
    cases authorization build input l (getRequestHandler mem input.handlers .auth input.localUri).1 <;>
      cases hcb : l.isCallbackResource <;> simp [Activation.rank, RequestLocals.passed, hcb]
  | rejected action => simp [Activation.rank]
  | resource =>
    dsimp only
    split_ifs with hcb <;> simp [Activation.rank, hcb]
  | served i =>
    dsimp only
    split_ifs <;> simp [Activation.rank]
  | done action => exact (hdone action rfl).elim

theorem handleRequest_halts (build : Build) (s : HandlerMemory × Activation) :
    Machine.Halts (handleRequest build) s := by
  apply Machine.halts_of_measure (handleRequest build) (fun _ => True) (fun s => s.2.rank) _ s trivial
  intro s t _ hstep
  refine ⟨trivial, ?_⟩
  have hdone : ∀ action, s.2.pc ≠ .done action := by
    intro action hpc
    unfold handleRequest at hstep
    rw [hpc] at hstep
    cases hstep
  have hnext : handleRequest build s = .inl (s.2.next build s.1) := by
    unfold handleRequest
    split
    · next action hpc => exact (hdone action hpc).elim
    · rfl
  rw [hnext] at hstep
  rw [← Sum.inl.inj hstep]
  exact next_rank build s.1 s.2 hdone

/-- The entry given back is allocated. -/
theorem givenHandler_read (mem : HandlerMemory) (handlers : Option Addr) (handlerType : HandlerType)
    (uri : List Byte) (a : Addr) (info : HandlerInfo)
    (h : givenHandler mem handlers handlerType uri = some (a, info)) :
    ∃ next, read mem a = some ⟨info, next⟩ := by
  have hmem := (givenHandler_mem mem handlers handlerType uri (a, info) h).1
  cases hlist : listAt mem handlers with
  | none =>
    rw [hlist] at hmem
    cases hmem
  | some l =>
    rw [hlist] at hmem
    exact ((listAt_eq mem handlers l).mp hlist).read mem handlers l a info hmem

theorem refcountOf_addRefs (d : Addr → Int) (mem : HandlerMemory) (a : Addr) :
    refcountOf (addRefs d mem) a = (refcountOf mem a).map (· + d a) := by
  unfold refcountOf addRefs
  rw [read_mapValues]
  cases read mem a <;> rfl

theorem Balanced.done_keeps (build : Build) (mem : HandlerMemory) (input : RequestInput) (action : Action)
    (l : RequestLocals) (h : Balanced build mem input (.done action) l) :
    KeepsReferences build mem input := by
  cases h with
  | free _ _ _ _ _ hkeeps => exact hkeeps
  | done _ _ hkeeps => exact hkeeps

/-- A request on its own gives back what it takes exactly if it keeps its references. -/
theorem handleRequest_keeps (build : Build) (mem mem' : HandlerMemory) (act : Activation)
    (d : Addr → Int) (action : Action) (hbal : Balanced build mem act.input act.pc act.locals)
    (hd : ∀ a, d a = oneFor act.held a)
    (h : Machine.Ends (handleRequest build) (addRefs d mem, act) (mem', action)) :
    (∀ a, refcountOf mem' a = refcountOf mem a) ↔ KeepsReferences build mem act.input := by
  obtain ⟨s, hs⟩ : ∃ s, s = (addRefs d mem, act) := ⟨_, rfl⟩
  obtain ⟨r, hr⟩ : ∃ r, r = (mem', action) := ⟨_, rfl⟩
  rw [← hs, ← hr] at h
  induction h generalizing d act with
  | last s r hlast =>
    obtain ⟨input, pc, l⟩ := act
    subst hs hr
    cases pc with
    | done action' =>
      have hzero : d = fun _ => 0 := by
        funext a
        rw [hd a]
        exact if_neg (by simp [Activation.held])
      unfold handleRequest at hlast
      dsimp only at hlast
      rw [Sum.inr.injEq, Prod.mk.injEq, hzero, addRefs_zero] at hlast
      rw [← hlast.1]
      exact ⟨fun _ => Balanced.done_keeps build mem input action' l hbal, fun _ _ => rfl⟩
    | _ => cases hlast
  | more s t r hstep hrest ih =>
    subst hs hr
    have hnext : t = act.next build (addRefs d mem) := by
      unfold handleRequest at hstep
      split at hstep
      · cases hstep
      · exact (Sum.inl.inj hstep).symm
    obtain ⟨d', hmem, hinput, hgood | hbad⟩ := next_outcome build mem act d hbal
    · rw [← hnext] at hmem hinput hgood
      obtain ⟨hbal', hd'⟩ := hgood
      rw [← hinput]
      apply ih t.2 d'
      · rw [hinput]
        exact hbal'
      · intro a
        rw [hd' a, hd a]
        omega
      · rw [← hmem]
      · rfl
    · rw [← hnext] at hmem hbad
      obtain ⟨hlost, ⟨action', hpc⟩, a, info, hresp, hne⟩ := hbad
      have hlast : handleRequest build t = .inr (t.1, action') := by
        unfold handleRequest
        rw [hpc]
      have hmem' : mem' = addRefs d' mem := by
        cases hrest with
        | last _ _ hend =>
          rw [hlast, Sum.inr.injEq, Prod.mk.injEq] at hend
          rw [← hend.1, hmem]
        | more _ u _ hgo _ =>
          rw [hlast] at hgo
          cases hgo
      constructor
      · intro hsame
        obtain ⟨next, hread⟩ := givenHandler_read mem _ _ _ a info hresp.2.2
        have hcount : refcountOf mem a = some info.refcount := by
          unfold refcountOf
          rw [hread]
          rfl
        have heq := hsame a
        rw [hmem', refcountOf_addRefs, hcount, Option.map_some, Option.some.injEq] at heq
        rw [hd a] at hne
        omega
      · intro hkeeps
        exact (hlost hkeeps).elim

/-! ### Requests at the same time -/

theorem holders_set (s : HandlerState) (i : Nat) (act act' : Activation) (mem : HandlerMemory)
    (hget : s.activations[i]? = some act) (a : Addr) :
    ((HandlerState.holders ⟨mem, s.activations.set i act'⟩ a : Nat) : Int) =
      s.holders a + oneFor act'.held a - oneFor act.held a := by
  have hone (x : Activation) : (oneFor x.held a : Int) = if x.held == some a then 1 else 0 := by
    unfold oneFor
    simp only [beq_iff_eq]
  rw [hone, hone]
  exact countP_exchange s.activations i act act' (fun x => x.held == some a) hget

/-- What holds of requests that are being handled: each of them is balanced, and the memory is as it was
but for the references they hold. -/
structure BalancedRun (build : Build) (mem : HandlerMemory) (s : HandlerState) : Prop where
  memory : s.mem = addRefs (fun a => s.holders a) mem
  activations : ∀ act ∈ s.activations, Balanced build mem act.input act.pc act.locals
  keeps : ∀ act ∈ s.activations, KeepsReferences build mem act.input

theorem requestStep_balanced (build : Build) (mem : HandlerMemory) (s t : HandlerState)
    (label : RequestLabel) (h : BalancedRun build mem s)
    (hok : ∀ input, label = .arrive input → KeepsReferences build mem input)
    (hstep : requestStep build s label = some t) : BalancedRun build mem t := by
  cases label with
  | arrive input =>
    rw [requestStep, Option.some.injEq] at hstep
    subst hstep
    have hholders (a : Addr) : HandlerState.holders
        { s with activations := s.activations ++ [Activation.start input] } a = s.holders a := by
      simp [HandlerState.holders, Activation.start, Activation.held]
    refine ⟨?_, ?_, ?_⟩
    · simp only [hholders]
      exact h.memory
    · intro act hact
      rcases List.mem_append.mp hact with hact | hact
      · exact h.activations act hact
      · rw [List.mem_singleton.mp hact]
        exact Balanced.url
    · intro act hact
      rcases List.mem_append.mp hact with hact | hact
      · exact h.keeps act hact
      · rw [List.mem_singleton.mp hact]
        exact hok input rfl
  | next i =>
    unfold requestStep at hstep
    dsimp only at hstep
    cases hget : s.activations[i]? with
    | none =>
      rw [hget] at hstep
      cases hstep
    | some act =>
      rw [hget] at hstep
      dsimp only at hstep
      rw [Option.some.injEq] at hstep
      subst hstep
      have hact := List.mem_of_getElem? hget
      obtain ⟨d', hmem, hinput, hgood | hbad⟩ := next_outcome build mem act (fun a => s.holders a)
        (h.activations act hact)
      · rw [← h.memory] at hmem hinput hgood
        obtain ⟨hbal, hd'⟩ := hgood
        refine ⟨?_, ?_, ?_⟩
        · have hd : d' = fun a => ((HandlerState.holders
              ⟨(act.next build s.mem).1, s.activations.set i (act.next build s.mem).2⟩ a : Nat) : Int) := by
            funext a
            rw [hd' a, holders_set s i act _ _ hget a]
          rw [← hd]
          exact hmem
        · intro x hx
          rcases List.mem_or_eq_of_mem_set hx with hx | rfl
          · exact h.activations x hx
          · rw [hinput]
            exact hbal
        · intro x hx
          rcases List.mem_or_eq_of_mem_set hx with hx | rfl
          · exact h.keeps x hx
          · rw [hinput]
            exact h.keeps act hact
      · exact (hbad.1 (h.keeps act hact)).elim

theorem BalancedRun.refcounts (build : Build) (mem : HandlerMemory) (s : HandlerState)
    (h : BalancedRun build mem s) (hzero : ∀ a n, refcountOf mem a = some n → n = 0) : s.RefsHeld := by
  intro a n hn
  rw [h.memory, refcountOf_addRefs] at hn
  obtain ⟨k, hk, rfl⟩ := Option.map_eq_some_iff.mp hn
  rw [hzero a k hk, zero_add]

/-- A request takes and gives back the same references exactly if it keeps its references; where all
requests do, every entry has as many references as there are activations that hold it, whatever the order
of their steps. -/
theorem handleRequest_balanced (build : Build) (mem : HandlerMemory) :
    (∀ input, ∃ mem' action,
      Machine.Ends (handleRequest build) (mem, Activation.start input) (mem', action) ∧
        ((∀ a, refcountOf mem' a = refcountOf mem a) ↔ KeepsReferences build mem input)) ∧
    ∀ labels, (∀ a n, refcountOf mem a = some n → n = 0) →
      System.Along (requestStep build)
        (fun _ label => ∀ input, label = .arrive input → KeepsReferences build mem input) ⟨mem, []⟩
        labels →
      System.Always (requestStep build) HandlerState.RefsHeld ⟨mem, []⟩ labels := by
  constructor
  · intro input
    obtain ⟨⟨mem', action⟩, hends⟩ := handleRequest_halts build (mem, Activation.start input)
    refine ⟨mem', action, hends, ?_⟩
    rw [← addRefs_zero mem] at hends
    exact handleRequest_keeps build mem mem' (Activation.start input) (fun _ => 0) action Balanced.url
      (fun _ => (if_neg (by simp [Activation.start, Activation.held])).symm) hends
  · intro labels hzero hok
    apply System.Always.imp (requestStep build) (BalancedRun build mem) HandlerState.RefsHeld
    · intro s hs
      exact hs.refcounts build mem s hzero
    · apply System.always_of_invariant (requestStep build) (BalancedRun build mem)
        (fun _ label => ∀ input, label = .arrive input → KeepsReferences build mem input)
      · intro s label t hs hl hstep
        exact requestStep_balanced build mem s t label hs hl hstep
      · refine ⟨?_, by simp, by simp⟩
        simp [HandlerState.holders, addRefs_zero]
      · exact hok

/-- A build without websockets and HTTP/2, as it is by default. -/
def defaultBuild : Build := ⟨false, false⟩

/-- One handler for one URI. -/
def oneHandler : HandlerMemory := [(1, ⟨{ noHandler with uri := [47, 97], handler := 7 }, none⟩)]

/-- A request for the URI; `i` is what the handler returns. The directory of the file is protected. -/
def protectedRequest (i : Int) : RequestInput where
  requestMethod := ascii "GET"
  localUri := [47, 97]
  protocolType := PROTOCOL_TYPE_HTTP1
  handlers := some 1
  isSsl := false
  sslRedir := false
  sslListener := false
  mgStrdup := true
  beginRequest := none
  corsPreflight := false
  enableWebdav := false
  documentRoot := true
  putDeletePasswordsFile := false
  enableDirectoryListing := false
  interpretUri := ⟨true, false, false, false, false, false⟩
  mustHideFile := false
  slashMissing := false
  isNotModified := false
  callbackHandler _ _ := i
  authHandler _ _ _ := true
  checkAuthorization pass := pass == 0
  isAuthorizedForPut := false

theorem handleRequest_balanced_served :
    System.Always (requestStep defaultBuild) HandlerState.RefsHeld ⟨oneHandler, []⟩
      [.arrive (protectedRequest 200), .arrive (protectedRequest 200), .next 0, .next 0, .next 1,
        .next 1, .next 0] := by
  apply (handleRequest_balanced defaultBuild oneHandler).2
  · intro a n hn
    unfold refcountOf at hn
    obtain ⟨c, hc, rfl⟩ := Option.map_eq_some_iff.mp hn
    by_cases ha : a = 1
    · subst ha
      rw [show read oneHandler 1 = some ⟨{ noHandler with uri := [47, 97], handler := 7 }, none⟩ from rfl,
        Option.some.injEq] at hc
      rw [← hc]
      rfl
    · rw [oneHandler, read_cons, if_neg (Ne.symm ha)] at hc
      cases hc
  · have hkeeps : KeepsReferences defaultBuild oneHandler (protectedRequest 200) :=
      fun _ _ _ _ => ⟨rfl, rfl, Or.inl (show (0 : Int) < 200 by decide)⟩
    simp [System.Along, hkeeps]

/-- The handler does not serve the request, and the file is protected: its reference is given back twice. -/
theorem handleRequest_releases_twice :
    ∃ mem' action, Machine.Ends (handleRequest defaultBuild) (oneHandler, Activation.start (protectedRequest 0))
        (mem', action) ∧
      refcountOf oneHandler 1 = some 0 ∧ refcountOf mem' 1 = some (-1) := by
  refine ⟨_, .sendAuthorizationRequest, (Machine.ends_iff_runFor _ _ _).mpr ⟨11, rfl⟩, rfl, rfl⟩

end CivetWeb
