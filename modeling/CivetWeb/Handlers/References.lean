import CivetWeb.Handlers.HandleRequest
import CivetWeb.Lib.Machine
import CivetWeb.Lib.System

namespace CivetWeb

open LinkedList

/-- One element of a list is exchanged. -/
theorem countP_exchange {α : Type*} (l : List α) (i : Nat) (x y : α) (p : α → Bool) (h : l[i]? = some x) :
    (((l.set i y).countP p : Nat) : Int) =
      l.countP p + (if p y then 1 else 0) - (if p x then 1 else 0) := by
  obtain ⟨hlt, rfl⟩ := List.getElem?_eq_some_iff.mp h
  have hpos : (if p l[i] then 1 else 0) ≤ l.countP p := by
    by_cases hx : p l[i]
    · rw [if_pos hx]
      exact List.countP_pos_iff.mpr ⟨l[i], List.getElem_mem hlt, hx⟩
    · rw [if_neg hx]
      exact Nat.zero_le _
  rw [List.countP_set hlt]
  split_ifs at hpos ⊢ <;> omega

/-! ### References as numbers -/

/-- A memory with `d a` references more to the entry at `a`. -/
def addRefs (d : Addr → Int) (mem : HandlerMemory) : HandlerMemory :=
  mapValues (fun a => HandlerInfo.addRefs (d a)) mem

/-- The entry that `get_request_handler` gives back. -/
def givenHandler (mem : HandlerMemory) (handlers : Option Addr) (handlerType : HandlerType)
    (uri : List Byte) : Option (Addr × HandlerInfo) :=
  match findHandler ((listAt mem handlers).getD []) handlerType uri with
  | none => none
  | some e => if handlerType = .request ∧ e.2.removing then none else some e

/-- The entry to which `get_request_handler` takes a reference. -/
def takenRef (handlerType : HandlerType) (given : Option (Addr × HandlerInfo)) : Option Addr :=
  if handlerType = .request then given.map (·.1) else none

/-- One for the entry, none for the others. -/
def oneFor (handlerInfo : Option Addr) (a : Addr) : Int := if handlerInfo = some a then 1 else 0

theorem addRefs_addRefs (n k : Int) (info : HandlerInfo) :
    (info.addRefs n).addRefs k = info.addRefs (n + k) := by
  unfold HandlerInfo.addRefs
  simp only [add_assoc]

theorem addRefs_zero (mem : HandlerMemory) : addRefs (fun _ => 0) mem = mem := by
  unfold addRefs mapValues HandlerInfo.addRefs
  simp

theorem modifyValue_addRefs (d : Addr → Int) (mem : HandlerMemory) (a : Addr) (n : Int) :
    modifyValue (addRefs d mem) a (HandlerInfo.addRefs n) =
      addRefs (fun b => d b + n * oneFor (some a) b) mem := by
  unfold addRefs
  rw [modifyValue_mapValues]
  congr 1
  funext b info
  unfold oneFor
  dsimp only
  by_cases hb : b = a
  · rw [if_pos hb, if_pos (congrArg some hb.symm), mul_one, addRefs_addRefs]
  · rw [if_neg hb, if_neg (fun h => hb (Option.some.inj h).symm), mul_zero, add_zero]

theorem releaseHandlerRef_addRefs (d : Addr → Int) (mem : HandlerMemory) (handlerInfo : Option Addr) :
    releaseHandlerRef (addRefs d mem) handlerInfo = addRefs (fun b => d b - oneFor handlerInfo b) mem := by
  cases handlerInfo with
  | none => simp [releaseHandlerRef, oneFor]
  | some a =>
    rw [releaseHandlerRef, modifyValue_addRefs]
    simp only [neg_one_mul, Int.sub_eq_add_neg]

/-- The references that are held do not matter to a search. -/
theorem givenHandler_addRefs (d : Addr → Int) (mem : HandlerMemory) (handlers : Option Addr)
    (handlerType : HandlerType) (uri : List Byte) :
    givenHandler (addRefs d mem) handlers handlerType uri =
      (givenHandler mem handlers handlerType uri).map fun e => (e.1, e.2.addRefs (d e.1)) := by
  obtain ⟨f, hf⟩ : ∃ f : Addr × HandlerInfo → Addr × HandlerInfo,
      f = fun e => (e.1, e.2.addRefs (d e.1)) := ⟨_, rfl⟩
  have hlist : (listAt (addRefs d mem) handlers).getD [] = ((listAt mem handlers).getD []).map f := by
    unfold addRefs
    rw [listAt_mapValues, hf]
    cases listAt mem handlers <;> rfl
  have hsame (step : Nat) :
      ((fun e : Addr × HandlerInfo => e.2.handlerType == handlerType && e.2.matched uri step) ∘ f) =
        fun e => e.2.handlerType == handlerType && e.2.matched uri step := by
    rw [hf]
    rfl
  have hfind : findHandler (((listAt mem handlers).getD []).map f) handlerType uri =
      (findHandler ((listAt mem handlers).getD []) handlerType uri).map f := by
    unfold findHandler
    generalize (listAt mem handlers).getD [] = entries
    simp only [List.findSome?, List.find?_map, hsame]
    cases entries.find? fun e => e.2.handlerType == handlerType && e.2.matched uri 0 with
    | some e => rfl
    | none =>
      cases entries.find? fun e => e.2.handlerType == handlerType && e.2.matched uri 1 with
      | some e => rfl
      | none =>
        cases entries.find? fun e => e.2.handlerType == handlerType && e.2.matched uri 2 <;> rfl
  rw [← hf]
  unfold givenHandler
  rw [hlist, hfind]
  cases findHandler ((listAt mem handlers).getD []) handlerType uri with
  | none => rfl
  | some e =>
    have hremoving : (f e).2.removing = e.2.removing := by
      rw [hf]
      rfl
    simp only [Option.map_some, hremoving]
    split_ifs <;> rfl

/-- The entry given back is one of the list, and of the type. -/
theorem givenHandler_mem (mem : HandlerMemory) (handlers : Option Addr) (handlerType : HandlerType)
    (uri : List Byte) (e : Addr × HandlerInfo) (h : givenHandler mem handlers handlerType uri = some e) :
    e ∈ (listAt mem handlers).getD [] ∧ e.2.handlerType = handlerType := by
  have hfind : findHandler ((listAt mem handlers).getD []) handlerType uri = some e := by
    unfold givenHandler at h
    cases hf : findHandler ((listAt mem handlers).getD []) handlerType uri with
    | none =>
      rw [hf] at h
      cases h
    | some e' =>
      rw [hf] at h
      dsimp only at h
      split_ifs at h
      exact h
  obtain ⟨step, -, hstep⟩ := List.exists_of_findSome?_eq_some hfind
  have hmatch := List.find?_some hstep
  rw [Bool.and_eq_true, beq_iff_eq] at hmatch
  exact ⟨List.mem_of_find?_eq_some hstep, hmatch.1⟩

theorem getRequestHandler_eq (mem : HandlerMemory) (handlers : Option Addr) (handlerType : HandlerType)
    (uri : List Byte) :
    getRequestHandler mem handlers handlerType uri =
      (givenHandler mem handlers handlerType uri,
        match takenRef handlerType (givenHandler mem handlers handlerType uri) with
        | none => mem
        | some a => modifyValue mem a (HandlerInfo.addRefs 1)) := by
  unfold getRequestHandler givenHandler takenRef
  cases findHandler ((listAt mem handlers).getD []) handlerType uri with
  | none => split_ifs <;> rfl
  | some e =>
    obtain ⟨a, info⟩ := e
    by_cases htype : handlerType = .request
    · cases hremoving : info.removing <;> simp [htype, hremoving]
    · simp [htype]

theorem getRequestHandler_addRefs (d : Addr → Int) (mem : HandlerMemory) (handlers : Option Addr)
    (handlerType : HandlerType) (uri : List Byte) :
    getRequestHandler (addRefs d mem) handlers handlerType uri =
      ((givenHandler mem handlers handlerType uri).map fun e => (e.1, e.2.addRefs (d e.1)),
        addRefs (fun b => d b + oneFor (takenRef handlerType (givenHandler mem handlers handlerType uri)) b)
          mem) := by
  have htaken : takenRef handlerType ((givenHandler mem handlers handlerType uri).map fun e =>
      (e.1, e.2.addRefs (d e.1))) = takenRef handlerType (givenHandler mem handlers handlerType uri) := by
    unfold takenRef
    rw [Option.map_map]
    rfl
  rw [getRequestHandler_eq, givenHandler_addRefs, htaken]
  cases takenRef handlerType (givenHandler mem handlers handlerType uri) with
  | none => simp [oneFor]
  | some a =>
    dsimp only
    rw [modifyValue_addRefs]
    simp only [one_mul]

/-! ### The condition -/

section
variable (build : Build) (mem : HandlerMemory) (input : RequestInput)

/-- The request is given the request handler `info` at `a`. -/
def Responsible (a : Addr) (info : HandlerInfo) : Prop :=
  urlAction input = none ∧ requestHandlerType build input = .request ∧
    givenHandler mem input.handlers .request input.localUri = some (a, info)

def verdict (l : RequestLocals) : Verdict :=
  authorization build input l (givenHandler mem input.handlers .auth input.localUri)

/-- The variables with which a request that its handler has not served is authorized again. -/
def retryLocals (a : Addr) (info : HandlerInfo) : RequestLocals :=
  fileLocals build input (callbackLocals build input a info).passed

/-- The second authorization is refused, where the handler is released. -/
def RetryRejected (a : Addr) (info : HandlerInfo) : Prop :=
  (input.interpretUri.isWebdavRequest && !input.enableWebdav) = false ∧
    ∃ action, verdict build mem input (retryLocals build input a info) = .rejected action

/-- A request whose handler is called is an HTTP/1 request and no websocket request, and its handler serves
it or it is not refused afterwards. -/
def KeepsReferences : Prop :=
  ∀ a info, Responsible build mem input a info →
    verdict build mem input (callbackLocals build input a info) = .granted →
    http1Only build input = false ∧ isWebsocketRequest input = false ∧
      (0 < input.callbackHandler info.handler info.cbdata ∨ ¬ RetryRejected build mem input a info)

end

/-- The entry of which the activation has a reference. -/
def Activation.held (act : Activation) : Option Addr :=
  let used := if act.locals.isCallbackResource then act.locals.handlerInfo else none
  match act.pc with
  | .webdav => used
  | .authorization => used
  | .rejected _ => used
  | .resource => used
  | .served _ => used
  | _ => none

/-- A handler is responsible and may be called. -/
structure Called (build : Build) (mem : HandlerMemory) (input : RequestInput) (a : Addr)
    (info : HandlerInfo) : Prop where
  responsible : Responsible build mem input a info
  granted : verdict build mem input (callbackLocals build input a info) = .granted

/-- It was called and has not served the request. -/
structure Returned (build : Build) (mem : HandlerMemory) (input : RequestInput) (a : Addr)
    (info : HandlerInfo) : Prop extends Called build mem input a info where
  http1 : http1Only build input = false
  websocket : isWebsocketRequest input = false
  unserved : ¬ 0 < input.callbackHandler info.handler info.cbdata

/-- How far a request has got, as long as its references are balanced. -/
inductive Balanced (build : Build) (mem : HandlerMemory) (input : RequestInput) :
    RequestPc → RequestLocals → Prop
  | url : Balanced build mem input .url startLocals
  | lookup : urlAction input = none → Balanced build mem input .lookup startLocals
  | free (pc : RequestPc) (l : RequestLocals) : pc ≠ .url → pc ≠ .lookup → l.handlerInfo = none →
      KeepsReferences build mem input → Balanced build mem input pc l
  | webdav (a : Addr) (info : HandlerInfo) (n : Int) : Responsible build mem input a info →
      Balanced build mem input .webdav (callbackLocals build input a (info.addRefs n))
  | authorization (a : Addr) (info : HandlerInfo) (n : Int) : Responsible build mem input a info →
      Balanced build mem input .authorization (callbackLocals build input a (info.addRefs n))
  | rejected (a : Addr) (info : HandlerInfo) (n : Int) (action : Action) :
      Responsible build mem input a info →
      verdict build mem input (callbackLocals build input a info) = .rejected action →
      Balanced build mem input (.rejected action) (callbackLocals build input a (info.addRefs n))
  | resource (a : Addr) (info : HandlerInfo) (n : Int) : Called build mem input a info →
      Balanced build mem input .resource (callbackLocals build input a (info.addRefs n)).passed
  | served (a : Addr) (info : HandlerInfo) (n : Int) : Called build mem input a info →
      http1Only build input = false → isWebsocketRequest input = false →
      Balanced build mem input (.served (input.callbackHandler info.handler info.cbdata))
        (callbackLocals build input a (info.addRefs n)).passed
  | returned (a : Addr) (info : HandlerInfo) (n : Int) : Returned build mem input a info →
      Balanced build mem input .noCallbackResource
        (callbackLocals build input a (info.addRefs n)).passed
  | retry (a : Addr) (info : HandlerInfo) (n : Int) : Returned build mem input a info →
      Balanced build mem input .webdav (retryLocals build input a (info.addRefs n))
  | retryAuthorization (a : Addr) (info : HandlerInfo) (n : Int) : Returned build mem input a info →
      (input.interpretUri.isWebdavRequest && !input.enableWebdav) = false →
      Balanced build mem input .authorization (retryLocals build input a (info.addRefs n))
  | retryRejected (a : Addr) (info : HandlerInfo) (n : Int) (action : Action) :
      Returned build mem input a info → RetryRejected build mem input a info →
      Balanced build mem input (.rejected action) (retryLocals build input a (info.addRefs n))
  | retryResource (a : Addr) (info : HandlerInfo) (n : Int) : Returned build mem input a info →
      ¬ RetryRejected build mem input a info →
      Balanced build mem input .resource (retryLocals build input a (info.addRefs n)).passed
  | done (action : Action) (l : RequestLocals) : KeepsReferences build mem input →
      Balanced build mem input (.done action) l

section
variable (build : Build) (mem : HandlerMemory) (input : RequestInput)

theorem Responsible.unique (a b : Addr) (info info' : HandlerInfo)
    (h : Responsible build mem input a info) (h' : Responsible build mem input b info') :
    a = b ∧ info = info' := by
  have heq := h.2.2.symm.trans h'.2.2
  rw [Option.some.injEq, Prod.mk.injEq] at heq
  exact heq

/-- Where no handler is responsible, nothing can go wrong. -/
theorem keepsReferences_of_none (h : ∀ a info, ¬ Responsible build mem input a info) :
    KeepsReferences build mem input := fun a info hr => (h a info hr).elim

theorem keepsReferences_of_refused (a : Addr) (info : HandlerInfo)
    (h : Responsible build mem input a info)
    (hv : verdict build mem input (callbackLocals build input a info) ≠ .granted) :
    KeepsReferences build mem input := by
  intro b info' h' hgranted
  obtain ⟨rfl, rfl⟩ := h.unique build mem input a b info info' h'
  exact (hv hgranted).elim

theorem Called.keepsReferences_iff (a : Addr) (info : HandlerInfo) (h : Called build mem input a info) :
    KeepsReferences build mem input ↔
      http1Only build input = false ∧ isWebsocketRequest input = false ∧
        (0 < input.callbackHandler info.handler info.cbdata ∨ ¬ RetryRejected build mem input a info) := by
  constructor
  · intro hkeeps
    exact hkeeps a info h.responsible h.granted
  · intro hcond b info' h' _
    obtain ⟨rfl, rfl⟩ := h.responsible.unique build mem input a b info info' h'
    exact hcond

theorem Returned.keepsReferences_iff (a : Addr) (info : HandlerInfo)
    (h : Returned build mem input a info) :
    KeepsReferences build mem input ↔ ¬ RetryRejected build mem input a info := by
  rw [h.toCalled.keepsReferences_iff]
  constructor
  · rintro ⟨-, -, hserved | hretry⟩
    · exact (h.unserved hserved).elim
    · exact hretry
  · intro hretry
    exact ⟨h.http1, h.websocket, Or.inr hretry⟩

/-- The references that are held do not matter to authorization. -/
theorem authorization_addRefs (d : Addr → Int) (l : RequestLocals) (given : Option (Addr × HandlerInfo)) :
    authorization build input l (given.map fun e => (e.1, e.2.addRefs (d e.1))) =
      authorization build input l given := by
  cases given <;> rfl

/-- The step of a request that keeps its references balanced, or the one that ends it out of balance. -/
def StepOutcome (act : Activation) (d : Addr → Int) (next : HandlerMemory × Activation) : Prop :=
  ∃ d', next.1 = addRefs d' mem ∧ next.2.input = act.input ∧
    ((Balanced build mem act.input next.2.pc next.2.locals ∧
        ∀ a, d' a = d a + oneFor next.2.held a - oneFor act.held a) ∨
      (¬ KeepsReferences build mem act.input ∧ (∃ action, next.2.pc = .done action) ∧
        ∃ a info, Responsible build mem act.input a info ∧ d' a ≠ d a - oneFor act.held a))

theorem StepOutcome.kept (act act' : Activation) (d : Addr → Int) (hinput : act'.input = act.input)
    (hbalanced : Balanced build mem act.input act'.pc act'.locals) (hheld : act'.held = act.held) :
    StepOutcome build mem act d (addRefs d mem, act') := by
  refine ⟨d, rfl, hinput, Or.inl ⟨hbalanced, ?_⟩⟩
  intro a
  rw [hheld]
  omega

/-- A step that gives up the reference that the activation has. -/
theorem StepOutcome.released (act act' : Activation) (d : Addr → Int) (hinput : act'.input = act.input)
    (hbalanced : Balanced build mem act.input act'.pc act'.locals) (hheld : act'.held = none) :
    StepOutcome build mem act d (addRefs (fun b => d b - oneFor act.held b) mem, act') := by
  refine ⟨fun b => d b - oneFor act.held b, rfl, hinput, Or.inl ⟨hbalanced, ?_⟩⟩
  intro a
  have hnone : oneFor none a = 0 := if_neg (by simp)
  rw [hheld, hnone, add_zero]

/-- A request without a handler of its own changes nothing. -/
theorem next_free (act : Activation) (d : Addr → Int) (hurl : act.pc ≠ .url) (hlookup : act.pc ≠ .lookup)
    (hnone : act.locals.handlerInfo = none) (hkeeps : KeepsReferences build mem act.input) :
    StepOutcome build mem act d (act.next build (addRefs d mem)) := by
  have hheld (pc : RequestPc) (l : RequestLocals) (hl : l.handlerInfo = none) :
      (⟨act.input, pc, l⟩ : Activation).held = none := by
    unfold Activation.held
    cases pc <;> simp [hl]
  have hact : act.held = none := hheld act.pc act.locals hnone
  have hrelease : releaseHandlerRef (addRefs d mem) act.locals.handlerInfo = addRefs d mem := by
    rw [hnone]
    rfl
  have hauth : (getRequestHandler (addRefs d mem) act.input.handlers .auth act.input.localUri).2 =
      addRefs d mem := by
    rw [getRequestHandler_addRefs]
    simp [takenRef, oneFor]
  have hgo (pc : RequestPc) (l : RequestLocals) (hpc : pc ≠ .url) (hpc' : pc ≠ .lookup)
      (hl : l.handlerInfo = none) :
      StepOutcome build mem act d (addRefs d mem, { act with pc := pc, locals := l }) := by
    apply StepOutcome.kept build mem act { act with pc := pc, locals := l } d rfl
    · exact Balanced.free pc l hpc hpc' hl hkeeps
    · exact (hheld pc l hl).trans hact.symm
  obtain ⟨input, pc, l⟩ := act
  unfold Activation.next
  cases pc with
  | url => exact (hurl rfl).elim
  | lookup => exact (hlookup rfl).elim
  | noCallbackResource =>
    exact hgo .webdav (fileLocals build input l) (by simp) (by simp) hnone
  | webdav =>
    dsimp only
    split_ifs
    · exact hgo _ l (by simp) (by simp) hnone
    · exact hgo _ l (by simp) (by simp) hnone
  | authorization =>
    dsimp only at hauth ⊢
    rw [hauth]
    cases authorization build input l
      (getRequestHandler (addRefs d mem) input.handlers .auth input.localUri).1 with
    | granted => exact hgo .resource l.passed (by simp) (by simp) hnone
    | rejected action => exact hgo _ l (by simp) (by simp) hnone
    | ended action => exact hgo _ l (by simp) (by simp) hnone
  | rejected action =>
    dsimp only at hrelease ⊢
    rw [hrelease]
    exact hgo _ l (by simp) (by simp) hnone
  | resource =>
    dsimp only
    split_ifs
    · exact hgo _ l (by simp) (by simp) hnone
    · exact hgo _ l (by simp) (by simp) hnone
    · exact hgo _ l (by simp) (by simp) hnone
    · exact hgo _ l (by simp) (by simp) hnone
    · exact hgo _ l (by simp) (by simp) hnone
  | served i =>
    dsimp only at hrelease ⊢
    rw [hrelease]
    split_ifs
    · exact hgo _ l (by simp) (by simp) hnone
    · exact hgo _ l (by simp) (by simp) hnone
  | done action => exact hgo _ l (by simp) (by simp) hnone

/-- The auth handler is looked up without a reference to it. -/
theorem next_authorization (l : RequestLocals) (d : Addr → Int) :
    (⟨input, .authorization, l⟩ : Activation).next build (addRefs d mem) =
      match verdict build mem input l with
      | .granted => (addRefs d mem, ⟨input, .resource, l.passed⟩)
      | .rejected action => (addRefs d mem, ⟨input, .rejected action, l⟩)
      | .ended action => (addRefs d mem, ⟨input, .done action, l⟩) := by
  have hauth := getRequestHandler_addRefs d mem input.handlers .auth input.localUri
  have htaken : takenRef .auth (givenHandler mem input.handlers .auth input.localUri) = none := rfl
  have hsame : addRefs (fun b => d b + oneFor none b) mem = addRefs d mem := by
    simp [oneFor]
  rw [htaken, hsame] at hauth
  unfold Activation.next verdict
  dsimp only
  rw [hauth]
  dsimp only
  have hverdict := authorization_addRefs build input d l (givenHandler mem input.handlers .auth input.localUri)
  generalize authorization build input l (Option.map _ _) = v at hverdict ⊢
  subst hverdict
  cases authorization build input l (givenHandler mem input.handlers .auth input.localUri) <;> rfl

/-- A request with a callback is never sent on to the file authorization. -/
theorem verdict_callback (a : Addr) (info : HandlerInfo) (action : Action) :
    verdict build mem input (callbackLocals build input a info) ≠ .ended action := by
  unfold verdict authorization
  cases givenHandler mem input.handlers .auth input.localUri with
  | none =>
    dsimp only [callbackLocals]
    simp only [Bool.not_true, Bool.and_false, Bool.false_eq_true, if_false]
    by_cases hcheck : input.checkAuthorization 0 = true
    · simp [hcheck]
    · simp [hcheck]
  | some e =>
    dsimp only
    split_ifs <;> simp

/-- From the search to the release the activation has a reference. -/
theorem callback_held (a : Addr) (info : HandlerInfo) (n : Int)
    (hr : Responsible build mem input a info) :
    (⟨input, .webdav, callbackLocals build input a (info.addRefs n)⟩ : Activation).held = some a ∧
      (∀ action, (⟨input, .rejected action, callbackLocals build input a (info.addRefs n)⟩ :
        Activation).held = some a) ∧
      (⟨input, .resource, (callbackLocals build input a (info.addRefs n)).passed⟩ : Activation).held =
        some a ∧
      ∀ i, (⟨input, .served i, (callbackLocals build input a (info.addRefs n)).passed⟩ :
        Activation).held = some a := by
  have hinfo : (callbackLocals build input a (info.addRefs n)).handlerInfo = some a := if_pos hr.2.1
  exact ⟨hinfo, fun _ => hinfo, hinfo, fun _ => hinfo⟩

/-- Each step keeps the references balanced, but for a release of a handler that was released before, and
for a request that ends without the release of its handler. -/
theorem next_outcome (act : Activation) (d : Addr → Int)
    (h : Balanced build mem act.input act.pc act.locals) :
    StepOutcome build mem act d (act.next build (addRefs d mem)) := by
  obtain ⟨input, pc, l⟩ := act
  dsimp only at h
  cases h with
  | url =>
    unfold Activation.next
    dsimp only
    cases hurl : urlAction input with
    | none =>
      exact StepOutcome.kept build mem ⟨input, .url, startLocals⟩ ⟨input, .lookup, startLocals⟩ d rfl
        (Balanced.lookup hurl) rfl
    | some action =>
      apply StepOutcome.kept build mem ⟨input, .url, startLocals⟩ ⟨input, .done action, startLocals⟩ d rfl
      · apply Balanced.done
        apply keepsReferences_of_none
        intro a info hr
        have hnone := hr.1
        rw [hurl] at hnone
        cases hnone
      · rfl
  | lookup hurl =>
    have hget := getRequestHandler_addRefs d mem input.handlers (requestHandlerType build input)
      input.localUri
    unfold Activation.next
    dsimp only
    have hhttp1 : ¬ (isWebsocketRequest input && http1Only build input) = true := by
      intro hboth
      simp only [isWebsocketRequest, http1Only, PROTOCOL_TYPE_WEBSOCKET, PROTOCOL_TYPE_HTTP2,
        Bool.and_eq_true, beq_iff_eq] at hboth
      omega
    have hzero : addRefs (fun b => d b + oneFor none b) mem = addRefs d mem := by simp [oneFor]
    rw [if_neg hhttp1, hget]
    by_cases htype : requestHandlerType build input = .request
    · cases hgiven : givenHandler mem input.handlers .request input.localUri with
      | none =>
        have hkeeps : KeepsReferences build mem input := by
          apply keepsReferences_of_none
          intro a info hr
          have hsome := hr.2.2
          rw [hgiven] at hsome
          cases hsome
        rw [htype, hgiven, takenRef, if_pos rfl, Option.map_none, Option.map_none, hzero]
        exact StepOutcome.kept build mem ⟨input, .lookup, startLocals⟩
          ⟨input, .noCallbackResource, startLocals⟩ d rfl
          (Balanced.free _ _ (by simp) (by simp) rfl hkeeps) rfl
      | some e =>
        obtain ⟨a, info⟩ := e
        have hr : Responsible build mem input a info := ⟨hurl, htype, hgiven⟩
        rw [htype, hgiven, takenRef, if_pos rfl, Option.map_some, Option.map_some]
        dsimp only
        refine ⟨fun b => d b + oneFor (some a) b, rfl, rfl, Or.inl ⟨?_, ?_⟩⟩
        · exact Balanced.webdav a info (d a) hr
        · intro b
          have hnone : oneFor none b = 0 := if_neg (by simp)
          rw [(callback_held build mem input a info (d a) hr).1]
          have hstart : (⟨input, .lookup, startLocals⟩ : Activation).held = none := rfl
          rw [hstart, hnone, sub_zero]
    · have hkeeps : KeepsReferences build mem input := by
        apply keepsReferences_of_none
        intro a info hr
        exact htype hr.2.1
      have htaken (given : Option (Addr × HandlerInfo)) :
          takenRef (requestHandlerType build input) given = none := if_neg htype
      rw [htaken, hzero]
      cases givenHandler mem input.handlers (requestHandlerType build input) input.localUri with
      | none =>
        exact StepOutcome.kept build mem ⟨input, .lookup, startLocals⟩
          ⟨input, .noCallbackResource, startLocals⟩ d rfl
          (Balanced.free _ _ (by simp) (by simp) rfl hkeeps) rfl
      | some e =>
        have hnone : (callbackLocals build input e.1 (e.2.addRefs (d e.1))).handlerInfo = none :=
          if_neg htype
        apply StepOutcome.kept build mem ⟨input, .lookup, startLocals⟩
          ⟨input, .webdav, callbackLocals build input e.1 (e.2.addRefs (d e.1))⟩ d rfl
        · exact Balanced.free _ _ (by simp) (by simp) hnone hkeeps
        · unfold Activation.held
          dsimp only
          rw [hnone, ite_self]
  | free _ _ hurl hlookup hnone hkeeps =>
    exact next_free build mem ⟨input, pc, l⟩ d hurl hlookup hnone hkeeps
  | webdav a info n hr =>
    apply StepOutcome.kept build mem ⟨input, .webdav, callbackLocals build input a (info.addRefs n)⟩
      ⟨input, .authorization, callbackLocals build input a (info.addRefs n)⟩ d rfl
    · exact Balanced.authorization a info n hr
    · rfl
  | authorization a info n hr =>
    rw [next_authorization]
    have hsame : verdict build mem input (callbackLocals build input a (info.addRefs n)) =
        verdict build mem input (callbackLocals build input a info) := rfl
    rw [hsame]
    cases hv : verdict build mem input (callbackLocals build input a info) with
    | granted =>
      apply StepOutcome.kept build mem
        ⟨input, .authorization, callbackLocals build input a (info.addRefs n)⟩
        ⟨input, .resource, (callbackLocals build input a (info.addRefs n)).passed⟩ d rfl
      · exact Balanced.resource a info n ⟨hr, hv⟩
      · rfl
    | rejected action =>
      apply StepOutcome.kept build mem
        ⟨input, .authorization, callbackLocals build input a (info.addRefs n)⟩
        ⟨input, .rejected action, callbackLocals build input a (info.addRefs n)⟩ d rfl
      · exact Balanced.rejected a info n action hr hv
      · rfl
    | ended action => exact (verdict_callback build mem input a info action hv).elim
  | rejected a info n action hr hv =>
    have hheld := (callback_held build mem input a info n hr).2.1 action
    have hinfo : (callbackLocals build input a (info.addRefs n)).handlerInfo = some a := if_pos hr.2.1
    have hkeeps : KeepsReferences build mem input := by
      apply keepsReferences_of_refused build mem input a info hr
      rw [hv]
      simp
    unfold Activation.next
    dsimp only
    rw [releaseHandlerRef_addRefs, hinfo, ← hheld]
    exact StepOutcome.released build mem _ _ d rfl (Balanced.done action _ hkeeps) rfl
  | resource a info n hcalled =>
    have hheld := (callback_held build mem input a info n hcalled.responsible).2.2.1
    have hiff := hcalled.keepsReferences_iff
    have hcallback : (callbackLocals build input a (info.addRefs n)).passed.isCallbackResource = true := rfl
    have hsocket : (callbackLocals build input a (info.addRefs n)).passed.isWebsocketRequest =
        isWebsocketRequest input := rfl
    unfold Activation.next
    dsimp only
    rw [if_pos hcallback, hsocket]
    -- an end of the request here leaves the reference
    have hleak (action : Action) (hbad : ¬ KeepsReferences build mem input) :
        StepOutcome build mem
          ⟨input, .resource, (callbackLocals build input a (info.addRefs n)).passed⟩ d
          (addRefs d mem, ⟨input, .done action,
            (callbackLocals build input a (info.addRefs n)).passed⟩) := by
      refine ⟨d, rfl, rfl, Or.inr ⟨hbad, ⟨action, rfl⟩, a, info, hcalled.responsible, ?_⟩⟩
      have hone : oneFor (some a) a = 1 := if_pos rfl
      rw [hheld, hone]
      omega
    by_cases hhttp1 : http1Only build input = true
    · rw [if_pos hhttp1]
      apply hleak
      rw [hiff, hhttp1]
      simp
    rw [if_neg hhttp1]
    by_cases hws : (!isWebsocketRequest input) = true
    · rw [if_pos hws]
      apply StepOutcome.kept build mem
        ⟨input, .resource, (callbackLocals build input a (info.addRefs n)).passed⟩
        ⟨input, .served (input.callbackHandler info.handler info.cbdata),
          (callbackLocals build input a (info.addRefs n)).passed⟩ d rfl
      · exact Balanced.served a info n hcalled (by simpa using hhttp1) (by simpa using hws)
      · rfl
    · have hbad : ¬ KeepsReferences build mem input := by
        rw [hiff]
        rintro ⟨-, hfalse, -⟩
        rw [hfalse] at hws
        exact hws rfl
      rw [if_neg hws]
      split_ifs
      · exact hleak _ hbad
      · exact hleak _ hbad
  | served a info n hcalled hhttp1 hws =>
    have hheld := (callback_held build mem input a info n hcalled.responsible).2.2.2
      (input.callbackHandler info.handler info.cbdata)
    have hinfo : (callbackLocals build input a (info.addRefs n)).passed.handlerInfo = some a :=
      if_pos hcalled.responsible.2.1
    unfold Activation.next
    dsimp only
    rw [releaseHandlerRef_addRefs, hinfo, ← hheld]
    by_cases hserved : 0 < input.callbackHandler info.handler info.cbdata
    · rw [if_pos hserved]
      have hkeeps : KeepsReferences build mem input := by
        rw [hcalled.keepsReferences_iff]
        exact ⟨hhttp1, hws, Or.inl hserved⟩
      exact StepOutcome.released build mem _ _ d rfl (Balanced.done _ _ hkeeps) rfl
    · rw [if_neg hserved]
      exact StepOutcome.released build mem _ _ d rfl
        (Balanced.returned a info n ⟨hcalled, hhttp1, hws, hserved⟩) rfl
  | returned a info n hret =>
    apply StepOutcome.kept build mem
      ⟨input, .noCallbackResource, (callbackLocals build input a (info.addRefs n)).passed⟩
      ⟨input, .webdav, retryLocals build input a (info.addRefs n)⟩ d rfl
    · exact Balanced.retry a info n hret
    · rfl
  | retry a info n hret =>
    have hiff := hret.keepsReferences_iff
    have hwebdav : (retryLocals build input a (info.addRefs n)).isWebdavRequest =
        input.interpretUri.isWebdavRequest := rfl
    unfold Activation.next
    dsimp only
    rw [hwebdav]
    by_cases hdav : (input.interpretUri.isWebdavRequest && !input.enableWebdav) = true
    · rw [if_pos hdav]
      apply StepOutcome.kept build mem ⟨input, .webdav, retryLocals build input a (info.addRefs n)⟩
        ⟨input, .done (.sendHttpError 405), retryLocals build input a (info.addRefs n)⟩ d rfl
      · apply Balanced.done
        rw [hiff]
        rintro ⟨hfalse, -⟩
        rw [hdav] at hfalse
        cases hfalse
      · rfl
    · rw [if_neg hdav]
      apply StepOutcome.kept build mem ⟨input, .webdav, retryLocals build input a (info.addRefs n)⟩
        ⟨input, .authorization, retryLocals build input a (info.addRefs n)⟩ d rfl
      · exact Balanced.retryAuthorization a info n hret (by simpa using hdav)
      · rfl
  | retryAuthorization a info n hret hdav =>
    rw [next_authorization]
    have hsame : verdict build mem input (retryLocals build input a (info.addRefs n)) =
        verdict build mem input (retryLocals build input a info) := rfl
    have hiff := hret.keepsReferences_iff
    rw [hsame]
    cases hv : verdict build mem input (retryLocals build input a info) with
    | granted =>
      apply StepOutcome.kept build mem
        ⟨input, .authorization, retryLocals build input a (info.addRefs n)⟩
        ⟨input, .resource, (retryLocals build input a (info.addRefs n)).passed⟩ d rfl
      · apply Balanced.retryResource a info n hret
        rintro ⟨-, action, hrej⟩
        rw [hv] at hrej
        cases hrej
      · rfl
    | rejected action =>
      apply StepOutcome.kept build mem
        ⟨input, .authorization, retryLocals build input a (info.addRefs n)⟩
        ⟨input, .rejected action, retryLocals build input a (info.addRefs n)⟩ d rfl
      · exact Balanced.retryRejected a info n action hret ⟨hdav, action, hv⟩
      · rfl
    | ended action =>
      apply StepOutcome.kept build mem
        ⟨input, .authorization, retryLocals build input a (info.addRefs n)⟩
        ⟨input, .done action, retryLocals build input a (info.addRefs n)⟩ d rfl
      · apply Balanced.done
        rw [hiff]
        rintro ⟨-, action', hrej⟩
        rw [hv] at hrej
        cases hrej
      · rfl
  | retryRejected a info n action hret hrej =>
    -- the handler was released when it returned
    have hinfo : (retryLocals build input a (info.addRefs n)).handlerInfo = some a :=
      if_pos hret.responsible.2.1
    have hbad : ¬ KeepsReferences build mem input := by
      rw [hret.keepsReferences_iff]
      exact not_not.mpr hrej
    unfold Activation.next
    dsimp only
    rw [releaseHandlerRef_addRefs, hinfo]
    refine ⟨fun b => d b - oneFor (some a) b, rfl, rfl, Or.inr ⟨hbad, ⟨action, rfl⟩, a, info,
      hret.responsible, ?_⟩⟩
    have hone : oneFor (some a) a = 1 := if_pos rfl
    have hheld : (⟨input, .rejected action, retryLocals build input a (info.addRefs n)⟩ :
        Activation).held = none := rfl
    have hzero : oneFor none a = 0 := if_neg (by simp)
    dsimp only
    rw [hheld, hone, hzero]
    omega
  | retryResource a info n hret hrej =>
    apply StepOutcome.kept build mem
      ⟨input, .resource, (retryLocals build input a (info.addRefs n)).passed⟩
      ⟨input, .done (fileAction build input (retryLocals build input a (info.addRefs n)).passed),
        (retryLocals build input a (info.addRefs n)).passed⟩ d rfl
    · apply Balanced.done
      rw [hret.keepsReferences_iff]
      exact hrej
    · rfl
  | done action _ hkeeps =>
    exact StepOutcome.kept build mem ⟨input, .done action, l⟩ ⟨input, .done action, l⟩ d rfl
      (Balanced.done action l hkeeps) rfl

end

end CivetWeb
