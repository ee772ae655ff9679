import CivetWeb.Lib.Slots
import CivetWeb.Pool.AltQueue

namespace CivetWeb

variable {σ : Type*}

/-! ### The slots -/

/-- The thread that accepts is about to signal slot `i`, which it has filled. -/
def AltMaster.signalling : AltMaster σ → Nat → Prop
  | .signals k, i => k = i
  | _, _ => False

/-- The event of slot `i` has been signalled for the end of the server. -/
def AltMaster.woke : AltMaster σ → Nat → Prop
  | .wakesAll k, i => i < k
  | .joins, _ | .finished, _ => True
  | _, _ => False

/-- The slots that have a thread. -/
def AltMaster.created (m : AltMaster σ) (spawned : Nat) : Nat :=
  match m with
  | .counts _ => spawned + 1
  | _ => spawned

/-- What the fields of a slot can be, by where its thread is: a slot with `in_use` 2 waits for a socket; one with 1
has got it, and its event is signalled or about to be. -/
def AltSlot.Fits (stop : Bool) (signalling woke : Prop) (slot : AltSlot σ) : Prop :=
  match slot.thread with
  | none => slot.inUse = 0 ∧ slot.event = false ∧ ¬ signalling
  | some .starting => slot.inUse = 0 ∧ ¬ signalling ∧ (slot.event = true ↔ woke)
  | some .waiting =>
    (slot.inUse = 2 ∧ ¬ signalling ∧ (slot.event = true ↔ woke)) ∨
      (slot.inUse = 1 ∧ (slot.event = true ↔ ¬ signalling) ∧ (woke → ¬ signalling))
  | some .woken => ¬ signalling ∧ (slot.inUse = 1 ∨ slot.inUse = 2 ∧ stop = true) ∧ (slot.event = true → woke)
  | some .busy => slot.inUse = 1 ∧ ¬ signalling ∧ (slot.event = true ↔ woke)
  | some .gone => ¬ signalling ∧ (slot.inUse = 2 → stop = true)

/-- The thread of a slot has yet to come to its next `event_wait`, or has come to it. -/
def AltSlot.Awaits (slot : AltSlot σ) : Prop :=
  slot.thread = some .starting ∨ slot.thread = some .waiting ∨ slot.thread = some .busy

theorem AltSlot.not_awaits {slot : AltSlot σ} (h : slot.thread = some .woken ∨ slot.thread = some .gone) :
    ¬ slot.Awaits := by
  rintro (hthread | hthread | hthread) <;> rw [hthread] at h <;> revert h <;> decide

namespace AltPool

open System

variable (cfg : AltConfig)

/-- What holds where the thread that accepts is. -/
def MasterFits (s : AltPool σ) : Prop :=
  match s.master with
  | .creates _ | .counts _ => s.spawnedWorkerThreads < s.slots.length
  | .locks _ i | .signals i => i < s.slots.length
  | .wakesAll _ | .joins => s.stopFlag = true
  | .finished => ∀ slot ∈ s.slots, slot.thread = none ∨ slot.thread = some .gone
  | _ => True

/-- What holds in every run: which slots have a thread, where the thread that accepts can be, and that the event which
is signalled for the end is there for each thread that comes to wait for it. -/
structure Shape (s : AltPool σ) : Prop where
  length : s.slots.length = cfg.cfgMaxWorkerThreads
  spawned : s.spawnedWorkerThreads ≤ s.slots.length
  created : ∀ (i : Nat) (slot : AltSlot σ), s.slots[i]? = some slot →
    (slot.thread = none ↔ s.master.created s.spawnedWorkerThreads ≤ i)
  woken : ∀ (i : Nat) (slot : AltSlot σ), s.slots[i]? = some slot → s.master.woke i → slot.Awaits → slot.event = true
  master : MasterFits s

/-- What holds as long as no `event_wait` fails. -/
structure Inv (s : AltPool σ) : Prop extends Shape cfg s where
  fits : ∀ (i : Nat) (slot : AltSlot σ), s.slots[i]? = some slot →
    slot.Fits s.stopFlag (s.master.signalling i) (s.master.woke i)
  unasserted : s.asserted = false

theorem initial_slot {i : Nat} {slot : AltSlot σ} (h : (initial cfg : AltPool σ).slots[i]? = some slot) :
    slot = ⟨none, 0, false, none⟩ := List.eq_of_mem_replicate (List.mem_of_getElem? h)

theorem shape_initial : Shape cfg (initial cfg : AltPool σ) := by
  refine ⟨List.length_replicate, Nat.zero_le _, fun i slot h => ?_, fun i slot h hwoke => False.elim hwoke, trivial⟩
  rw [initial_slot cfg h]
  exact ⟨fun _ => Nat.zero_le i, fun _ => rfl⟩

theorem inv_initial : Inv cfg (initial cfg : AltPool σ) := by
  refine ⟨shape_initial cfg, fun i slot h => ?_, rfl⟩
  rw [initial_slot cfg h]
  exact ⟨rfl, rfl, id⟩

/-- What the callers of `mg_start_worker_thread` go on with. -/
theorem back_quiet (caller : AltStarter σ) (started : Bool) (spawned : Nat) (i : Nat) :
    ¬ (caller.back started spawned).signalling i ∧
      (caller.back started spawned).created spawned = spawned ∧
      ((caller.back started spawned).woke i → spawned = 0) := by
  cases caller with
  | produceSocket sp => exact ⟨id, rfl, False.elim⟩
  | mgStart2 left =>
    unfold AltStarter.back
    split_ifs with hstarted hspawned
    · exact ⟨id, rfl, False.elim⟩
    · exact ⟨id, rfl, False.elim⟩
    · exact ⟨id, rfl, fun _ => Nat.eq_zero_of_not_pos hspawned⟩

/-- A slot that has a thread lies below the ones that have none. -/
theorem Shape.lt_created {s : AltPool σ} (h : Shape cfg s) {i : Nat} {slot : AltSlot σ}
    (hslot : s.slots[i]? = some slot) (hthread : slot.thread ≠ none) : i < s.master.created s.spawnedWorkerThreads := by
  by_contra hle
  exact hthread ((h.created i slot hslot).mpr (not_lt.mp hle))

/-- Another place of the thread that accepts, which signals no slot and has signalled the same ones for the end. -/
structure SamePlaces (s : AltPool σ) (m : AltMaster σ) : Prop where
  created : m.created s.spawnedWorkerThreads = s.master.created s.spawnedWorkerThreads
  signalling : ∀ i, ¬ s.master.signalling i ∧ ¬ m.signalling i
  woke : ∀ i < s.master.created s.spawnedWorkerThreads, (m.woke i ↔ s.master.woke i)

/-- The slots fit for another place of the thread that accepts, if that has to do with no slot. -/
theorem Inv.fits_places {s : AltPool σ} (h : Inv cfg s) {m : AltMaster σ}
    (hsig : ∀ i, ¬ s.master.signalling i ∧ ¬ m.signalling i)
    (hwoke : ∀ i < s.master.created s.spawnedWorkerThreads, (m.woke i ↔ s.master.woke i)) :
    ∀ (i : Nat) (slot : AltSlot σ), s.slots[i]? = some slot → slot.Fits s.stopFlag (m.signalling i) (m.woke i) := by
  intro i slot hslot
  have hfits := h.fits i slot hslot
  have hsame : m.signalling i ↔ s.master.signalling i :=
    ⟨fun hm => absurd hm (hsig i).2, fun hm => absurd hm (hsig i).1⟩
  cases hthread : slot.thread with
  | none =>
    unfold AltSlot.Fits at hfits ⊢
    rw [hthread] at hfits ⊢
    exact ⟨hfits.1, hfits.2.1, (hsig i).2⟩
  | some x =>
    have hi := h.lt_created cfg hslot (by rw [hthread]; exact Option.some_ne_none x)
    rw [propext hsame, propext (hwoke i hi)]
    exact hfits

theorem Inv.fits_move {s : AltPool σ} (h : Inv cfg s) {m : AltMaster σ} (hplaces : SamePlaces s m) :
    ∀ (i : Nat) (slot : AltSlot σ), s.slots[i]? = some slot → slot.Fits s.stopFlag (m.signalling i) (m.woke i) :=
  h.fits_places cfg hplaces.signalling hplaces.woke

/-- Where a thread is in one slot, the others keep what they have. -/
theorem Inv.fits_set {s : AltPool σ} (h : Inv cfg s) {i : Nat} {slot' : AltSlot σ}
    (hfits : slot'.Fits s.stopFlag (s.master.signalling i) (s.master.woke i)) :
    ∀ (j : Nat) (slot : AltSlot σ), (s.slots.set i slot')[j]? = some slot →
      slot.Fits s.stopFlag (s.master.signalling j) (s.master.woke j) := by
  intro j slot hslot
  rcases Slots.getElem?_set_cases hslot with ⟨rfl, rfl⟩ | ⟨-, hslot⟩
  · exact hfits
  · exact h.fits j slot hslot

theorem Shape.created_set {s : AltPool σ} (h : Shape cfg s) {i : Nat} {slot slot' : AltSlot σ}
    (hslot : s.slots[i]? = some slot) (hthread : slot'.thread = none ↔ slot.thread = none) :
    ∀ (j : Nat) (x : AltSlot σ), (s.slots.set i slot')[j]? = some x →
      (x.thread = none ↔ s.master.created s.spawnedWorkerThreads ≤ j) := by
  intro j x hx
  rcases Slots.getElem?_set_cases hx with ⟨rfl, rfl⟩ | ⟨-, hx⟩
  · exact hthread.trans (h.created j slot hslot)
  · exact h.created j x hx

/-- Where the thread that accepts is does not depend on what the slots hold, before the end. -/
theorem masterFits_of_same {s t : AltPool σ} (h : MasterFits s) (hm : t.master = s.master)
    (hlength : t.slots.length = s.slots.length) (hspawned : t.spawnedWorkerThreads = s.spawnedWorkerThreads)
    (hstop : s.stopFlag = true → t.stopFlag = true)
    (hfinished : s.master = .finished → ∀ slot ∈ t.slots, slot.thread = none ∨ slot.thread = some .gone) :
    MasterFits t := by
  unfold MasterFits at h ⊢
  rw [hm]
  cases hs : s.master with
  | creates caller | counts caller =>
    rw [hs] at h
    dsimp only at h ⊢
    rwa [hlength, hspawned]
  | locks sp i =>
    rw [hs] at h
    dsimp only at h ⊢
    rwa [hlength]
  | signals i =>
    rw [hs] at h
    dsimp only at h ⊢
    rwa [hlength]
  | wakesAll i | joins =>
    rw [hs] at h
    exact hstop h
  | finished => exact hfinished hs
  | _ => trivial

/-- One slot changes, and with it where the thread that accepts is. -/
theorem Shape.set {s : AltPool σ} (h : Shape cfg s) {m : AltMaster σ} {i : Nat} {slot slot' : AltSlot σ} (n : Int)
    (processed closed : List σ) (asserted : Bool) (hslot : s.slots[i]? = some slot)
    (hthread : slot'.thread = none ↔ slot.thread = none)
    (hcreated : m.created s.spawnedWorkerThreads = s.master.created s.spawnedWorkerThreads)
    (hwoken : m.woke i → slot'.Awaits → slot'.event = true)
    (hothers : ∀ j, j ≠ i → m.woke j → s.master.woke j)
    (hmaster : MasterFits { s with slots := s.slots.set i slot', master := m }) :
    Shape cfg { s with
      idleWorkerThreadCount := n
      slots := s.slots.set i slot'
      master := m
      processed := processed
      closed := closed
      asserted := asserted } where
  length := List.length_set.trans h.length
  spawned := by
    rw [List.length_set]
    exact h.spawned
  created := by
    intro j x hx
    show x.thread = none ↔ m.created s.spawnedWorkerThreads ≤ j
    rw [hcreated]
    exact h.created_set cfg hslot hthread j x hx
  woken := by
    intro j x hx hwoke hawaits
    rcases Slots.getElem?_set_cases hx with ⟨rfl, rfl⟩ | ⟨hji, hx⟩
    · exact hwoken hwoke hawaits
    · exact h.woken j x hx (hothers j hji hwoke) hawaits
  master := hmaster

/-- A step of a worker: in its slot alone. -/
theorem Shape.worker {s : AltPool σ} (h : Shape cfg s) {w : Nat} {slot slot' : AltSlot σ} (n : Int)
    (processed closed : List σ) (asserted : Bool) (hslot : s.slots[w]? = some slot)
    (hthread : slot.thread ≠ none ∧ slot.thread ≠ some .gone ∧ slot'.thread ≠ none)
    (hwoken : s.master.woke w → slot'.Awaits → slot'.event = true) :
    Shape cfg { s with
      idleWorkerThreadCount := n
      slots := s.slots.set w slot'
      processed := processed
      closed := closed
      asserted := asserted } := by
  refine h.set cfg n processed closed asserted hslot ?_ rfl hwoken (fun _ _ => id) ?_
  · exact ⟨fun hnone => absurd hnone hthread.2.2, fun hnone => absurd hnone hthread.1⟩
  · refine masterFits_of_same h.master rfl List.length_set rfl id fun hm => ?_
    have hend : MasterFits s := h.master
    rw [MasterFits, hm] at hend
    rcases hend slot (List.mem_of_getElem? hslot) with hnone | hgone
    · exact absurd hnone hthread.1
    · exact absurd hgone hthread.2.1

/-- Another place of the thread that accepts, if that has to do with no slot. -/
theorem Shape.move {s : AltPool σ} (h : Shape cfg s) {m : AltMaster σ} (n : Int) (passed closed : List σ)
    (hplaces : SamePlaces s m) (hmaster : MasterFits { s with master := m }) :
    Shape cfg { s with idleWorkerThreadCount := n, master := m, passed := passed, closed := closed } where
  length := h.length
  spawned := h.spawned
  created := by
    intro i slot hslot
    show slot.thread = none ↔ m.created s.spawnedWorkerThreads ≤ i
    rw [hplaces.created]
    exact h.created i slot hslot
  woken := by
    intro i slot hslot hwoke hawaits
    refine h.woken i slot hslot ((hplaces.woke i (h.lt_created cfg hslot fun hnone => ?_)).mp hwoke) hawaits
    rcases hawaits with hthread | hthread | hthread <;> rw [hthread] at hnone <;> cases hnone
  master := hmaster

/-- A place that has to do with no slot. -/
def Quiet (m : AltMaster σ) : Prop := (∀ n, m.created n = n) ∧ ∀ i, ¬ m.signalling i ∧ ¬ m.woke i

theorem quiet_of_cases {m : AltMaster σ}
    (h : match m with
      | .counts _ | .signals _ | .wakesAll _ | .joins | .finished => False
      | _ => True) : Quiet m := by
  cases m with
  | counts caller => cases h
  | signals i => cases h
  | wakesAll i => cases h
  | joins => cases h
  | finished => cases h
  | _ => exact ⟨fun _ => rfl, fun _ => ⟨id, id⟩⟩

theorem SamePlaces.of_quiet {s : AltPool σ} {m : AltMaster σ} (hs : Quiet s.master) (hm : Quiet m) :
    SamePlaces s m where
  created := (hm.1 _).trans (hs.1 _).symm
  signalling := fun i => ⟨(hs.2 i).1, (hm.2 i).1⟩
  woke := fun i _ => ⟨fun hw => absurd hw (hm.2 i).2, fun hw => absurd hw (hs.2 i).2⟩

/-- Where no thread is created, the thread that accepts goes on behind the call of `mg_start_worker_thread`. -/
theorem SamePlaces.back {s : AltPool σ} (caller : AltStarter σ) (hs : Quiet s.master) :
    SamePlaces s (caller.back false s.spawnedWorkerThreads) where
  created := (back_quiet caller false s.spawnedWorkerThreads 0).2.1.trans (hs.1 _).symm
  signalling := fun i => ⟨(hs.2 i).1, (back_quiet caller false s.spawnedWorkerThreads i).1⟩
  woke := by
    intro i hi
    refine ⟨fun hw => ?_, fun hw => absurd hw (hs.2 i).2⟩
    have hzero := (back_quiet caller false s.spawnedWorkerThreads i).2.2 hw
    have hspawned := hs.1 s.spawnedWorkerThreads
    omega

theorem Shape.back_master {s : AltPool σ} (h : Shape cfg s) (caller : AltStarter σ) (hs : Quiet s.master) :
    MasterFits { s with master := caller.back false s.spawnedWorkerThreads } := by
  have hspawned := hs.1 s.spawnedWorkerThreads
  cases caller with
  | produceSocket sp => trivial
  | mgStart2 left =>
    rw [AltStarter.back, if_neg Bool.false_ne_true]
    by_cases hsome : 0 < s.spawnedWorkerThreads
    · rw [if_pos hsome]
      trivial
    · rw [if_neg hsome]
      intro slot hmem
      obtain ⟨i, hslot⟩ := List.getElem?_of_mem hmem
      exact .inl ((h.created i slot hslot).mpr (by omega))

theorem move_places {s : AltPool σ} {l : AltLabel σ} {m : AltMaster σ} (hmove : Move s l m) : SamePlaces s m := by
  have hquiet {m m' : AltMaster σ} (hm : s.master = m) (hs : Quiet m) (hm' : Quiet m') : SamePlaces s m' :=
    .of_quiet (hm ▸ hs) hm'
  cases hmove with
  | serves hm => exact hquiet hm (quiet_of_cases trivial) (quiet_of_cases trivial)
  | prespawns left hm => exact hquiet hm (quiet_of_cases trivial) (quiet_of_cases trivial)
  | accepts hm hstop => exact hquiet hm (quiet_of_cases trivial) (quiet_of_cases trivial)
  | shutsDown hm hstop =>
    exact hquiet hm (quiet_of_cases trivial) ⟨fun _ => rfl, fun i => ⟨id, Nat.not_lt_zero i⟩⟩
  | refuses hm => exact hquiet hm (quiet_of_cases trivial) (quiet_of_cases trivial)
  | limit caller hm => exact .back caller (hm ▸ quiet_of_cases trivial)
  | searches sp hm hstop => exact hquiet hm (quiet_of_cases trivial) (quiet_of_cases trivial)
  | sees sp i slot hm hi hslot => exact hquiet hm (quiet_of_cases trivial) (quiet_of_cases trivial)
  | passesBy sp i hm hi => exact hquiet hm (quiet_of_cases trivial) (quiet_of_cases trivial)
  | sleeps sp i hm => exact hquiet hm (quiet_of_cases trivial) (quiet_of_cases trivial)
  | misses sp i hm => exact hquiet hm (quiet_of_cases trivial) (quiet_of_cases trivial)
  | wokeAll i hm hi =>
    refine ⟨by rw [hm]; rfl, ?_, ?_⟩
    · rw [hm]
      exact fun _ => ⟨id, id⟩
    · rw [hm]
      exact fun j hj => ⟨fun _ => Nat.lt_of_lt_of_le hj hi, fun _ => trivial⟩
  | joins hm hgone =>
    refine ⟨by rw [hm]; rfl, ?_, ?_⟩
    · rw [hm]
      exact fun _ => ⟨id, id⟩
    · rw [hm]
      exact fun _ _ => Iff.rfl

theorem Shape.move_master {s : AltPool σ} {l : AltLabel σ} {m : AltMaster σ} (h : Shape cfg s) (hmove : Move s l m) :
    MasterFits { s with master := m } := by
  cases hmove with
  | limit caller hm => exact h.back_master cfg caller (hm ▸ quiet_of_cases trivial)
  | shutsDown hm hstop => exact hstop
  | sees sp i slot hm hi hslot => exact (List.getElem?_eq_some_iff.mp hslot).1
  | wokeAll i hm hi =>
    have hmaster := h.master
    rw [MasterFits, hm] at hmaster
    exact hmaster
  | joins hm hgone => exact hgone
  | _ => trivial

theorem fits_stop {stop : Bool} {signalling woke : Prop} {slot : AltSlot σ} (h : slot.Fits stop signalling woke) :
    slot.Fits true signalling woke := by
  unfold AltSlot.Fits at h ⊢
  cases hthread : slot.thread with
  | none =>
    rw [hthread] at h
    exact h
  | some x =>
    rw [hthread] at h
    cases x with
    | woken => exact ⟨h.1, h.2.1.imp_right fun huse => ⟨huse.1, rfl⟩, h.2.2⟩
    | gone => exact ⟨h.1, fun _ => rfl⟩
    | _ => exact h

/-- The events are signalled for the end only when the server is stopped. -/
theorem Shape.stopped {s : AltPool σ} (h : Shape cfg s) {i j : Nat} {slot : AltSlot σ} (hslot : s.slots[j]? = some slot)
    (hthread : slot.thread ≠ none ∧ slot.thread ≠ some .gone) (hwoke : s.master.woke i) : s.stopFlag = true := by
  have hmaster := h.master
  unfold MasterFits at hmaster
  cases hm : s.master with
  | wakesAll k | joins =>
    rw [hm] at hmaster
    exact hmaster
  | finished =>
    rw [hm] at hmaster
    rcases hmaster slot (List.mem_of_getElem? hslot) with hnone | hgone
    · exact absurd hnone hthread.1
    · exact absurd hgone hthread.2
  | _ =>
    rw [hm] at hwoke
    exact False.elim hwoke

/-- A slot and the place of the thread that accepts change together. -/
theorem Inv.fits_set_move {s : AltPool σ} (h : Inv cfg s) {m : AltMaster σ} {i : Nat} {slot' : AltSlot σ}
    (hfits : slot'.Fits s.stopFlag (m.signalling i) (m.woke i))
    (hothers : ∀ j, j ≠ i → (m.signalling j ↔ s.master.signalling j) ∧ (m.woke j ↔ s.master.woke j)) :
    ∀ (j : Nat) (slot : AltSlot σ), (s.slots.set i slot')[j]? = some slot →
      slot.Fits s.stopFlag (m.signalling j) (m.woke j) := by
  intro j slot hslot
  rcases Slots.getElem?_set_cases hslot with ⟨rfl, rfl⟩ | ⟨hji, hslot⟩
  · exact hfits
  · rw [propext (hothers j hji).1, propext (hothers j hji).2]
    exact h.fits j slot hslot

/-- A free slot is that of a worker that waits. -/
theorem Inv.free_waits {s : AltPool σ} (h : Inv cfg s) {i : Nat} {slot : AltSlot σ} (hslot : s.slots[i]? = some slot)
    (huse : slot.inUse = 2) (hstop : s.stopFlag = false) :
    slot.thread = some .waiting ∧ ¬ s.master.signalling i ∧ (slot.event = true ↔ s.master.woke i) := by
  have hfits := h.fits i slot hslot
  unfold AltSlot.Fits at hfits
  cases hthread : slot.thread with
  | none =>
    rw [hthread] at hfits
    omega
  | some x =>
    rw [hthread] at hfits
    cases x with
    | starting => exact absurd (huse.symm.trans hfits.1) (by decide)
    | waiting =>
      rcases hfits with ⟨-, hsig, hevent⟩ | ⟨hone, -⟩
      · exact ⟨rfl, hsig, hevent⟩
      · exact absurd (huse.symm.trans hone) (by decide)
    | woken =>
      rcases hfits.2.1 with hone | ⟨-, hstopped⟩
      · exact absurd (huse.symm.trans hone) (by decide)
      · exact absurd (hstop.symm.trans hstopped) Bool.false_ne_true
    | busy => exact absurd (huse.symm.trans hfits.1) (by decide)
    | gone => exact absurd (hstop.symm.trans (hfits.2 huse)) Bool.false_ne_true

/-- The slot that is about to be signalled is that of a worker that waits, and holds its socket. -/
theorem Inv.signalled_waits {s : AltPool σ} (h : Inv cfg s) {i : Nat} {slot : AltSlot σ}
    (hslot : s.slots[i]? = some slot) (hsig : s.master.signalling i) :
    slot.thread = some .waiting ∧ slot.inUse = 1 := by
  have hfits := h.fits i slot hslot
  unfold AltSlot.Fits at hfits
  cases hthread : slot.thread with
  | none =>
    rw [hthread] at hfits
    exact absurd hsig hfits.2.2
  | some x =>
    rw [hthread] at hfits
    cases x with
    | starting => exact absurd hsig hfits.2.1
    | waiting =>
      rcases hfits with ⟨-, hnot, -⟩ | ⟨hone, -⟩
      · exact absurd hsig hnot
      · exact ⟨rfl, hone⟩
    | woken => exact absurd hsig hfits.1
    | busy => exact absurd hsig hfits.2.1
    | gone => exact absurd hsig hfits.1

theorem Shape.creates {s : AltPool σ} (h : Shape cfg s) {caller : AltStarter σ} {slot : AltSlot σ}
    (hm : s.master = .creates caller) (hslot : s.slots[s.spawnedWorkerThreads]? = some slot) :
    Shape cfg { s with
      slots := s.slots.set s.spawnedWorkerThreads { slot with thread := some .starting }
      master := .counts caller } where
  length := List.length_set.trans h.length
  spawned := by
    rw [List.length_set]
    exact h.spawned
  created := by
    intro j x hx
    show x.thread = none ↔ s.spawnedWorkerThreads + 1 ≤ j
    rcases Slots.getElem?_set_cases hx with ⟨rfl, rfl⟩ | ⟨hj, hx⟩
    · exact ⟨fun hnone => absurd hnone (Option.some_ne_none _), fun hle => absurd hle (Nat.not_succ_le_self _)⟩
    · have hcreated : x.thread = none ↔ s.spawnedWorkerThreads ≤ j := by
        have hbefore := h.created j x hx
        rwa [hm] at hbefore
      exact hcreated.trans ⟨fun hle => by omega, fun hle => by omega⟩
  woken := fun _ _ _ hwoke => False.elim hwoke
  master := by
    show s.spawnedWorkerThreads < (s.slots.set _ _).length
    rw [List.length_set]
    exact (List.getElem?_eq_some_iff.mp hslot).1

theorem back_started_quiet (caller : AltStarter σ) (spawned : Nat) : Quiet (caller.back true spawned) := by
  cases caller with
  | mgStart2 left => exact quiet_of_cases trivial
  | produceSocket sp => exact quiet_of_cases trivial

theorem Shape.counts {s : AltPool σ} (h : Shape cfg s) {caller : AltStarter σ} (hm : s.master = .counts caller) :
    Shape cfg { s with
      spawnedWorkerThreads := s.spawnedWorkerThreads + 1
      master := caller.back true (s.spawnedWorkerThreads + 1) } := by
  have hback := back_started_quiet caller (s.spawnedWorkerThreads + 1)
  have hmaster := h.master
  rw [MasterFits, hm] at hmaster
  refine ⟨h.length, hmaster, ?_, fun i _ _ hwoke => absurd hwoke (hback.2 i).2, ?_⟩
  · intro i slot hslot
    have hcreated := h.created i slot hslot
    rw [hm] at hcreated
    show slot.thread = none ↔ AltMaster.created _ (s.spawnedWorkerThreads + 1) ≤ i
    rw [hback.1]
    exact hcreated
  · cases caller with
    | mgStart2 left => trivial
    | produceSocket sp => trivial

theorem shape_step {s t : AltPool σ} {l : AltLabel σ} (h : Shape cfg s) (hstep : step cfg s l = some t) :
    Shape cfg t := by
  have hlive {slot slot' : AltSlot σ} (x : AltWorker) (hthread : slot.thread = some x) (hx : x ≠ .gone)
      (hslot' : slot'.thread ≠ none) : slot.thread ≠ none ∧ slot.thread ≠ some .gone ∧ slot'.thread ≠ none := by
    rw [hthread]
    exact ⟨Option.some_ne_none x, fun heq => hx (Option.some.inj heq), hslot'⟩
  cases step_effect cfg hstep with
  | moves l m hmove => exact h.move cfg _ _ _ (move_places hmove) (h.move_master cfg hmove)
  | passes sp hm =>
    exact h.move cfg _ _ _ (.of_quiet (hm ▸ quiet_of_cases trivial) (quiet_of_cases trivial)) trivial
  | announces caller hm hmax =>
    refine h.move cfg _ _ _ (.of_quiet (hm ▸ quiet_of_cases trivial) (quiet_of_cases trivial)) ?_
    show s.spawnedWorkerThreads < s.slots.length
    rw [h.length]
    exact hmax
  | creates caller slot hm hslot => exact h.creates cfg hm hslot
  | createFails caller hm =>
    have hquiet : Quiet s.master := hm ▸ quiet_of_cases trivial
    exact h.move cfg _ _ _ (.back caller hquiet) (h.back_master cfg caller hquiet)
  | counts caller hm => exact h.counts cfg hm
  | closes sp hm hstop =>
    exact h.move cfg _ _ _ (.of_quiet (hm ▸ quiet_of_cases trivial) (quiet_of_cases trivial)) trivial
  | hands sp i slot hm hslot huse hstop =>
    refine h.set cfg _ _ _ _ hslot Iff.rfl (by rw [hm]; rfl) False.elim (fun _ _ => False.elim) ?_
    show i < (s.slots.set i _).length
    rw [List.length_set]
    exact (List.getElem?_eq_some_iff.mp hslot).1
  | signals i slot hm hslot =>
    exact h.set cfg _ _ _ _ hslot Iff.rfl (by rw [hm]; rfl) False.elim (fun _ _ => False.elim) trivial
  | signalsNext i slot hm hi hslot =>
    refine h.set cfg _ _ _ _ hslot Iff.rfl (by rw [hm]; rfl) (fun _ _ => rfl) ?_ ?_
    · intro j hj hlt
      rw [hm]
      exact Nat.lt_of_le_of_ne (Nat.le_of_lt_succ hlt) hj
    · have hmaster := h.master
      rw [MasterFits, hm] at hmaster
      exact hmaster
  | goesIdle w slot n hslot hthread =>
    have hawaits : slot.Awaits := hthread.imp_right .inr
    refine h.worker cfg n _ _ _ hslot ?_ fun hwoke _ => h.woken w slot hslot hwoke hawaits
    rcases hthread with hthread | hthread
    · exact hlive .starting hthread (by decide) (Option.some_ne_none _)
    · exact hlive .busy hthread (by decide) (Option.some_ne_none _)
  | wakes w slot hslot hthread hevent =>
    exact h.worker cfg _ _ _ _ hslot (hlive .waiting hthread (by decide) (Option.some_ne_none _))
      fun _ hawaits => absurd hawaits (AltSlot.not_awaits (.inl rfl))
  | waitFails w slot hslot hthread =>
    exact h.worker cfg _ _ _ _ hslot (hlive .waiting hthread (by decide) (Option.some_ne_none _))
      fun _ hawaits => absurd hawaits (AltSlot.not_awaits (.inl rfl))
  | ends w slot hslot hthread hstop =>
    exact h.worker cfg _ _ _ _ hslot (hlive .woken hthread (by decide) (Option.some_ne_none _))
      fun _ hawaits => absurd hawaits (AltSlot.not_awaits (.inr rfl))
  | processes w slot hslot hthread hstop huse =>
    have hslot' := @hlive slot { slot with thread := some .busy } .woken hthread (by decide)
      (Option.some_ne_none _)
    refine h.worker cfg _ _ _ _ hslot hslot' fun hwoke _ => ?_
    have hstopped := h.stopped cfg hslot ⟨hslot'.1, hslot'.2.1⟩ hwoke
    exact absurd (hstop.symm.trans hstopped) Bool.false_ne_true
  | asserts w slot hslot hthread hstop huse =>
    exact h.worker cfg _ _ _ _ hslot (hlive .woken hthread (by decide) (Option.some_ne_none _))
      fun _ hawaits => absurd hawaits (AltSlot.not_awaits (.inr rfl))
  | initFails w slot hslot hthread =>
    exact h.worker cfg _ _ _ _ hslot (hlive .starting hthread (by decide) (Option.some_ne_none _))
      fun _ hawaits => absurd hawaits (AltSlot.not_awaits (.inr rfl))
  | stop =>
    refine ⟨h.length, h.spawned, h.created, h.woken, ?_⟩
    refine masterFits_of_same h.master rfl rfl rfl (fun _ => rfl) fun hm => ?_
    have hmaster := h.master
    rw [MasterFits, hm] at hmaster
    exact hmaster

theorem inv_step {s t : AltPool σ} {l : AltLabel σ} (h : Inv cfg s) (hl : ∀ w, l ≠ .waitFails w)
    (hstep : step cfg s l = some t) : Inv cfg t := by
  have hshape := shape_step cfg h.toShape hstep
  cases step_effect cfg hstep with
  | moves l m hmove => exact ⟨hshape, h.fits_move cfg (move_places hmove), h.unasserted⟩
  | passes sp hm =>
    exact ⟨hshape, h.fits_move cfg (.of_quiet (hm ▸ quiet_of_cases trivial) (quiet_of_cases trivial)), h.unasserted⟩
  | announces caller hm hmax =>
    exact ⟨hshape, h.fits_move cfg (.of_quiet (hm ▸ quiet_of_cases trivial) (quiet_of_cases trivial)), h.unasserted⟩
  | creates caller slot hm hslot =>
    refine ⟨hshape, h.fits_set_move cfg ?_ (by rw [hm]; exact fun _ _ => ⟨Iff.rfl, Iff.rfl⟩), h.unasserted⟩
    have hnone : slot.thread = none := (h.created _ slot hslot).mpr (by rw [hm]; exact le_rfl)
    have hfits := h.fits _ slot hslot
    unfold AltSlot.Fits at hfits
    rw [hnone] at hfits
    refine ⟨hfits.1, id, ?_⟩
    rw [hfits.2.1]
    exact ⟨fun hevent => absurd hevent Bool.false_ne_true, False.elim⟩
  | createFails caller hm =>
    exact ⟨hshape, h.fits_move cfg (.back caller (hm ▸ quiet_of_cases trivial)), h.unasserted⟩
  | counts caller hm =>
    have hback := back_started_quiet caller (s.spawnedWorkerThreads + 1)
    refine ⟨hshape, h.fits_places cfg (fun i => ⟨?_, (hback.2 i).1⟩) fun i _ => ?_, h.unasserted⟩
    · rw [hm]
      exact id
    · rw [hm]
      exact ⟨fun hw => absurd hw (hback.2 i).2, False.elim⟩
  | closes sp hm hstop =>
    exact ⟨hshape, h.fits_move cfg (.of_quiet (hm ▸ quiet_of_cases trivial) (quiet_of_cases trivial)), h.unasserted⟩
  | hands sp i slot hm hslot huse hstop =>
    obtain ⟨hwaits, -, hevent⟩ := h.free_waits cfg hslot huse hstop
    refine ⟨hshape, h.fits_set_move cfg ?_ ?_, h.unasserted⟩
    · unfold AltSlot.Fits
      rw [hwaits]
      refine .inr ⟨rfl, hevent.trans ?_, False.elim⟩
      rw [hm]
      exact ⟨False.elim, fun hnot => hnot rfl⟩
    · intro j hj
      rw [hm]
      exact ⟨⟨fun hij => absurd hij.symm hj, False.elim⟩, Iff.rfl⟩
  | signals i slot hm hslot =>
    obtain ⟨hwaits, hone⟩ := h.signalled_waits cfg hslot (by rw [hm]; exact rfl)
    refine ⟨hshape, h.fits_set_move cfg ?_ ?_, h.unasserted⟩
    · unfold AltSlot.Fits
      rw [hwaits]
      exact .inr ⟨hone, ⟨fun _ => id, fun _ => rfl⟩, fun _ => id⟩
    · intro j hj
      rw [hm]
      exact ⟨⟨False.elim, fun hij => hj hij.symm⟩, Iff.rfl⟩
  | signalsNext i slot hm hi hslot =>
    have hfits := h.fits i slot hslot
    rw [hm] at hfits
    refine ⟨hshape, h.fits_set_move cfg ?_ ?_, h.unasserted⟩
    · have hnow : i < i + 1 := Nat.lt_succ_self i
      unfold AltSlot.Fits at hfits ⊢
      cases hthread : slot.thread with
      | none =>
        have hcreated := (h.created i slot hslot).mp hthread
        rw [hm] at hcreated
        exact absurd hi (not_lt.mpr hcreated)
      | some x =>
        rw [hthread] at hfits
        cases x with
        | starting => exact ⟨hfits.1, id, fun _ => hnow, fun _ => rfl⟩
        | waiting =>
          rcases hfits with ⟨huse, -, -⟩ | ⟨huse, -, -⟩
          · exact .inl ⟨huse, id, fun _ => hnow, fun _ => rfl⟩
          · exact .inr ⟨huse, ⟨fun _ => id, fun _ => rfl⟩, fun _ => id⟩
        | woken => exact ⟨id, hfits.2.1, fun _ => hnow⟩
        | busy => exact ⟨hfits.1, id, fun _ => hnow, fun _ => rfl⟩
        | gone => exact ⟨id, hfits.2⟩
    · intro j hj
      rw [hm]
      refine ⟨Iff.rfl, fun hlt => ?_, fun hlt => Nat.lt_succ_of_lt hlt⟩
      exact Nat.lt_of_le_of_ne (Nat.le_of_lt_succ hlt) hj
  | goesIdle w slot n hslot hthread =>
    have hfits := h.fits w slot hslot
    unfold AltSlot.Fits at hfits
    refine ⟨hshape, h.fits_set cfg ?_, h.unasserted⟩
    rcases hthread with hthread | hthread
    · rw [hthread] at hfits
      exact .inl ⟨rfl, hfits.2⟩
    · rw [hthread] at hfits
      exact .inl ⟨rfl, hfits.2⟩
  | wakes w slot hslot hthread hevent =>
    have hlive : slot.thread ≠ none ∧ slot.thread ≠ some .gone := by
      rw [hthread]
      exact ⟨Option.some_ne_none _, by decide⟩
    have hfits := h.fits w slot hslot
    unfold AltSlot.Fits at hfits
    rw [hthread] at hfits
    refine ⟨hshape, h.fits_set cfg ?_, h.unasserted⟩
    rcases hfits with ⟨huse, hsig, hwoke⟩ | ⟨huse, hsig, -⟩
    · have hstop := h.stopped cfg hslot hlive (hwoke.mp hevent)
      exact ⟨hsig, .inr ⟨huse, hstop⟩, fun hfalse => absurd hfalse Bool.false_ne_true⟩
    · exact ⟨hsig.mp hevent, .inl huse, fun hfalse => absurd hfalse Bool.false_ne_true⟩
  | waitFails w slot hslot hthread => exact absurd rfl (hl w)
  | ends w slot hslot hthread hstop =>
    have hfits := h.fits w slot hslot
    unfold AltSlot.Fits at hfits
    rw [hthread] at hfits
    exact ⟨hshape, h.fits_set cfg ⟨hfits.1, fun _ => hstop⟩, h.unasserted⟩
  | processes w slot hslot hthread hstop huse =>
    have hlive : slot.thread ≠ none ∧ slot.thread ≠ some .gone := by
      rw [hthread]
      exact ⟨Option.some_ne_none _, by decide⟩
    have hfits := h.fits w slot hslot
    unfold AltSlot.Fits at hfits
    rw [hthread] at hfits
    refine ⟨hshape, h.fits_set cfg ⟨huse, hfits.1, hfits.2.2, fun hwoke => ?_⟩, h.unasserted⟩
    exact absurd (hstop.symm.trans (h.stopped cfg hslot hlive hwoke)) Bool.false_ne_true
  | asserts w slot hslot hthread hstop huse =>
    have hfits := h.fits w slot hslot
    unfold AltSlot.Fits at hfits
    rw [hthread] at hfits
    rcases hfits.2.1 with hone | ⟨-, hstopped⟩
    · exact absurd hone huse
    · exact absurd (hstop.symm.trans hstopped) Bool.false_ne_true
  | initFails w slot hslot hthread =>
    have hfits := h.fits w slot hslot
    unfold AltSlot.Fits at hfits
    rw [hthread] at hfits
    exact ⟨hshape, h.fits_set cfg ⟨hfits.2.1, fun huse => absurd (huse.symm.trans hfits.1) (by decide)⟩, h.unasserted⟩
  | stop => exact ⟨hshape, fun i slot hslot => fits_stop (h.fits i slot hslot), h.unasserted⟩

end AltPool

end CivetWeb
