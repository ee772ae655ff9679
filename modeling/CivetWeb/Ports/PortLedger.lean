import CivetWeb.Ports.SetPorts
import Mathlib.Tactic.Abel

namespace CivetWeb

open Ledger

/-! ### One entry -/

theorem bindLog_run (i : Nat) (bound : Bool) (so : ListenSocket) (held : Multiset PortResource) :
    run held (bindLog i bound so) = some (.socket i ::ₘ ((if bound then fileOf i so else 0) + held)) := by
  cases bound with
  | false => simp [bindLog]
  | true =>
    cases hunix : so.lsa.isUnix with
    | false => simp [bindLog, fileOf, hunix]
    | true => simp [bindLog, fileOf, hunix, Multiset.cons_swap]

/-- The arrays of a context with listening sockets. -/
structure ArraysKept (c : Listeners) : Prop where
  sockets : c.socketsPtr = none ↔ c.sockets = []
  fds : c.fdsPtr = c.socketsPtr

theorem reallocLog_run (old : Option Nat) (block : Nat → PortResource) (i : Nat) (held : Multiset PortResource) :
    run (arrayOf block old + held) (reallocLog old block i) = some (block i ::ₘ held) := by
  cases old with
  | none => simp [reallocLog, arrayOf]
  | some j => simp [reallocLog, arrayOf]

theorem reallocLog_gone (j : Nat) (block : Nat → PortResource) (i : Nat) {held : Multiset PortResource}
    (h : block j ∉ held) (rest : List (Ledger.Action PortResource)) :
    run held (reallocLog (some j) block i ++ rest) = none := by
  simp only [reallocLog, List.cons_append, List.nil_append]
  exact run_give_absent h _

/-- A turn that tears nothing gives back what it does not keep. -/
theorem portTurn_run (i : Nat) (c : Listeners) (fate : PortFate) (more : Multiset PortResource)
    (hfate : ∀ so, fate = .torn so → c.socketsPtr = none) :
    run (c.owned + more) (portTurn i c fate).2.2 =
      some ((portTurn i c fate).2.1.owned + (strandedFile i fate + more)) := by
  cases fate with
  | refused ok => simp [portTurn, strandedFile]
  | closed ok bound so =>
    simp only [portTurn, run_append, bindLog_run, Option.bind_some, run_give_head, run_nil, Option.some.injEq]
    cases bound with
    | false => simp [strandedFile]
    | true =>
      simp only [strandedFile, if_true]
      exact add_left_comm _ _ _
  | torn so =>
    have hnone := hfate so rfl
    simp only [portTurn, run_append, bindLog_run, Option.bind_some, hnone, reallocLog, List.nil_append, run_take,
      run_nil, if_true, strandedFile]
    rw [Multiset.cons_swap, run_give_head, run_give_head, run_nil, add_left_comm]
  | listed so =>
    have hfirst : PortResource.socket i ::ₘ (fileOf i so + (c.owned + more)) =
        arrayOf .sockets c.socketsPtr + (arrayOf .fds c.fdsPtr +
          (ownedBy (i, so) + (c.sockets.map ownedBy).sum + more)) := by
      rw [Listeners.owned, ownedBy, ← Multiset.singleton_add, ← Multiset.singleton_add]
      abel
    have hsecond (held : Multiset PortResource) : PortResource.sockets i ::ₘ (arrayOf .fds c.fdsPtr + held) =
        arrayOf .fds c.fdsPtr + (PortResource.sockets i ::ₘ held) := by
      simp
    simp only [portTurn, run_append, bindLog_run, Option.bind_some, if_true]
    rw [hfirst, reallocLog_run, Option.bind_some, hsecond, reallocLog_run]
    simp only [Listeners.owned, List.map_append, List.sum_append, arrayOf, strandedFile, List.map_cons,
      List.map_nil, List.sum_cons, List.sum_nil, Option.some.injEq, ← Multiset.singleton_add]
    abel

theorem portTurn_kept (i : Nat) {c : Listeners} (fate : PortFate) (hkept : ArraysKept c) :
    ArraysKept (portTurn i c fate).2.1 := by
  cases fate with
  | listed so => exact ⟨by simp [portTurn], rfl⟩
  | refused ok => exact hkept
  | closed ok bound so => exact hkept
  | torn so => exact hkept

theorem portTurn_sockets (i : Nat) (c : Listeners) (fate : PortFate) (fates : List PortFate) :
    (portTurn i c fate).2.1.sockets ++ listedFrom (i + 1) fates = c.sockets ++ listedFrom i (fate :: fates) := by
  cases fate <;> simp [portTurn, listedFrom]

theorem portTurn_ok (i : Nat) (c : Listeners) (fate : PortFate) : (portTurn i c fate).1 = fate.ok := by
  cases fate <;> rfl

/-- An entry tears nothing where nothing was listening, and the rest goes on behind it. -/
theorem tears_cons (i : Nat) {c : Listeners} {fate : PortFate} {fates : List PortFate} {behind : Bool}
    (hkept : ArraysKept c) (hbehind : behind = true ↔ c.sockets ≠ []) (h : tears behind (fate :: fates) = false) :
    (∀ so, fate = .torn so → c.socketsPtr = none) ∧
      ∃ behind', (behind' = true ↔ (portTurn i c fate).2.1.sockets ≠ []) ∧ tears behind' fates = false := by
  cases fate with
  | refused ok => exact ⟨by simp, behind, hbehind, h⟩
  | closed ok bound so => exact ⟨by simp, behind, hbehind, h⟩
  | listed so => exact ⟨by simp, true, by simp [portTurn], h⟩
  | torn so =>
    simp only [tears, Bool.or_eq_false_iff] at h
    refine ⟨fun _ _ => ?_, behind, hbehind, h.2⟩
    apply hkept.sockets.mpr
    by_contra hne
    rw [hbehind.mpr hne] at h
    cases h.1

/-! ### The loop -/

theorem portLoop_count (i portsOk : Nat) (c : Listeners) (fates : List PortFate) :
    (portLoop i portsOk c fates).1 = portsOk + fates.countP PortFate.ok := by
  induction fates generalizing i portsOk c with
  | nil => rfl
  | cons fate fates ih =>
    simp only [portLoop, ih, portTurn_ok, List.countP_cons]
    cases fate.ok with
    | false => simp
    | true =>
      simp only [Bool.toNat_true, if_true]
      omega

/-- Where nothing is torn, the loop keeps the listening sockets and their arrays, and leaves the files of the
sockets that it closes. -/
theorem portLoop_run (i portsOk : Nat) {c : Listeners} {fates : List PortFate} {behind : Bool}
    (more : Multiset PortResource) (hkept : ArraysKept c) (hbehind : behind = true ↔ c.sockets ≠ [])
    (h : tears behind fates = false) :
    ArraysKept (portLoop i portsOk c fates).2.1 ∧
      (portLoop i portsOk c fates).2.1.sockets = c.sockets ++ listedFrom i fates ∧
      run (c.owned + more) (portLoop i portsOk c fates).2.2 =
        some ((portLoop i portsOk c fates).2.1.owned + (strandedFrom i fates + more)) := by
  induction fates generalizing i portsOk c behind more with
  | nil => exact ⟨hkept, by simp [portLoop, listedFrom], by simp [portLoop, strandedFrom]⟩
  | cons fate fates ih =>
    obtain ⟨hfate, behind', hbehind', hrest⟩ := tears_cons i hkept hbehind h
    obtain ⟨hkept', hsockets, hrun⟩ := ih (i + 1) (portsOk + (portTurn i c fate).1.toNat)
      (strandedFile i fate + more) (portTurn_kept i fate hkept) hbehind' hrest
    refine ⟨hkept', hsockets.trans (portTurn_sockets i c fate fates), ?_⟩
    simp only [portLoop, run_append, portTurn_run i c fate more hfate, Option.bind_some, hrun, strandedFrom]
    rw [Option.some.injEq]
    abel

/-- `listening_sockets` points to an array that was given back. -/
structure Dangling (j : Nat) (c : Listeners) (held : Multiset PortResource) : Prop where
  ptr : c.socketsPtr = some j
  sockets : c.sockets ≠ []
  gone : PortResource.sockets j ∉ held

theorem portTurn_dangling {i j : Nat} {c : Listeners} {held : Multiset PortResource} (fate : PortFate)
    (h : Dangling j c held) :
    run held (portTurn i c fate).2.2 = none ∨
      ∃ held', run held (portTurn i c fate).2.2 = some held' ∧ Dangling j (portTurn i c fate).2.1 held' := by
  have hbound (so : ListenSocket) (bound : Bool) :
      PortResource.sockets j ∉ PortResource.socket i ::ₘ ((if bound then fileOf i so else 0) + held) := by
    have hfile : PortResource.sockets j ∉ (if bound then fileOf i so else 0) := by
      unfold fileOf
      split_ifs <;> simp
    simp [h.gone, hfile]
  cases fate with
  | refused ok => exact .inr ⟨held, rfl, h.ptr, h.sockets, h.gone⟩
  | closed ok bound so =>
    refine .inr ⟨(if bound then fileOf i so else 0) + held, ?_, h.ptr, h.sockets, ?_⟩
    · simp [portTurn, run_append, bindLog_run]
    · have hgone := hbound so bound
      simp only [Multiset.mem_cons, not_or] at hgone
      exact hgone.2
  | torn so =>
    left
    simp only [portTurn, List.append_assoc, h.ptr]
    rw [run_append_some (bindLog_run i true so held)]
    exact reallocLog_gone j _ i (hbound so true) _
  | listed so =>
    left
    simp only [portTurn, List.append_assoc, h.ptr]
    rw [run_append_some (bindLog_run i true so held)]
    exact reallocLog_gone j _ i (hbound so true) _

theorem portLoop_dangling {j : Nat} (i portsOk : Nat) {c : Listeners} {held : Multiset PortResource}
    (fates : List PortFate) (h : Dangling j c held) :
    run held (portLoop i portsOk c fates).2.2 = none ∨
      ∃ held', run held (portLoop i portsOk c fates).2.2 = some held' ∧
        Dangling j (portLoop i portsOk c fates).2.1 held' := by
  induction fates generalizing i portsOk c held with
  | nil => exact .inr ⟨held, rfl, h⟩
  | cons fate fates ih =>
    rcases portTurn_dangling fate h with hnone | ⟨held', hrun, hnext⟩
    · exact .inl (run_append_none hnone _)
    · simp only [portLoop]
      rw [run_append_some hrun]
      exact ih (i + 1) _ hnext

/-- An array that was given back is read when the sockets are closed. -/
theorem closeAll_dangling {j : Nat} {c : Listeners} {held : Multiset PortResource} (h : Dangling j c held) :
    run held (closeAllListeningSockets c).2 = none := by
  obtain ⟨s, ss, hs⟩ := List.exists_cons_of_ne_nil h.sockets
  simp only [closeAllListeningSockets, hs, List.flatMap_cons, List.cons_append, useSockets, h.ptr]
  exact run_use_absent h.gone _

theorem sockets_notMem_fileOf (i j : Nat) (so : ListenSocket) : PortResource.sockets j ∉ fileOf i so := by
  unfold fileOf
  split_ifs <;> simp

theorem sockets_notMem_strandedFile (i j : Nat) (fate : PortFate) : PortResource.sockets j ∉ strandedFile i fate := by
  unfold strandedFile
  split
  · exact sockets_notMem_fileOf _ _ _
  · exact sockets_notMem_fileOf _ _ _
  · exact Multiset.notMem_zero _

/-- Where there is no memory for `listening_socket_fds`, the array that `listening_sockets` points to is gone. -/
theorem portTurn_torn {i j : Nat} {c : Listeners} (so : ListenSocket) {more : Multiset PortResource}
    (hkept : ArraysKept c) (hptr : c.socketsPtr = some j) (hmore : PortResource.sockets j ∉ more) :
    ∃ held, run (c.owned + more) (portTurn i c (.torn so)).2.2 = some held ∧
      Dangling j (portTurn i c (.torn so)).2.1 held := by
  refine ⟨fileOf i so + ((c.sockets.map ownedBy).sum + arrayOf .fds c.fdsPtr + more), ?_, hptr, ?_, ?_⟩
  · have howned : PortResource.socket i ::ₘ (fileOf i so + (c.owned + more)) =
        arrayOf .sockets c.socketsPtr + (PortResource.socket i ::ₘ
          (fileOf i so + ((c.sockets.map ownedBy).sum + arrayOf .fds c.fdsPtr + more))) := by
      rw [Listeners.owned, ← Multiset.singleton_add, ← Multiset.singleton_add]
      abel
    simp only [portTurn, List.append_assoc]
    rw [run_append_some (bindLog_run i true so _), if_pos rfl, howned, run_append_some (reallocLog_run _ _ _ _),
      Multiset.cons_swap, run_give_head, run_give_head, run_nil]
  · intro hnil
    rw [hkept.sockets.mpr hnil] at hptr
    cases hptr
  · have hsum : PortResource.sockets j ∉ (c.sockets.map ownedBy).sum := by
      induction c.sockets with
      | nil => simp
      | cons s ss ih => simp [ownedBy, sockets_notMem_fileOf, ih]
    have hfds : PortResource.sockets j ∉ arrayOf .fds c.fdsPtr := by
      cases c.fdsPtr <;> simp [arrayOf]
    simp [sockets_notMem_fileOf, hsum, hfds, hmore]

theorem tears_cons_true (i : Nat) {c : Listeners} {fate : PortFate} {fates : List PortFate} {behind : Bool}
    (hkept : ArraysKept c) (hbehind : behind = true ↔ c.sockets ≠ []) (h : tears behind (fate :: fates) = true) :
    (∃ so j, fate = .torn so ∧ c.socketsPtr = some j) ∨
      (∀ so, fate = .torn so → c.socketsPtr = none) ∧
        ∃ behind', (behind' = true ↔ (portTurn i c fate).2.1.sockets ≠ []) ∧ tears behind' fates = true := by
  cases fate with
  | refused ok => exact .inr ⟨by simp, behind, hbehind, h⟩
  | closed ok bound so => exact .inr ⟨by simp, behind, hbehind, h⟩
  | listed so => exact .inr ⟨by simp, true, by simp [portTurn], h⟩
  | torn so =>
    cases hptr : c.socketsPtr with
    | some j => exact .inl ⟨so, j, rfl, rfl⟩
    | none =>
      have hfalse : behind = false := by
        have hempty := hkept.sockets.mp hptr
        simpa [hempty] using hbehind
      refine .inr ⟨by simp, behind, hbehind, ?_⟩
      simpa [tears, hfalse] using h

theorem portLoop_torn (i portsOk : Nat) (more : Multiset PortResource) {c : Listeners} {fates : List PortFate}
    {behind : Bool} (hmore : ∀ j, PortResource.sockets j ∉ more) (hkept : ArraysKept c)
    (hbehind : behind = true ↔ c.sockets ≠ []) (h : tears behind fates = true) :
    run (c.owned + more) (portLoop i portsOk c fates).2.2 = none ∨
      ∃ j held, run (c.owned + more) (portLoop i portsOk c fates).2.2 = some held ∧
        Dangling j (portLoop i portsOk c fates).2.1 held := by
  induction fates generalizing i portsOk c behind more with
  | nil => cases h
  | cons fate fates ih =>
    rcases tears_cons_true i hkept hbehind h with ⟨so, j, rfl, hptr⟩ | ⟨hfate, behind', hbehind', hrest⟩
    · obtain ⟨held, hrun, hdangling⟩ := portTurn_torn so hkept hptr (hmore j)
      simp only [portLoop]
      rw [run_append_some hrun]
      rcases portLoop_dangling (i + 1) _ fates hdangling with hnone | ⟨held', hrun', hdangling'⟩
      · exact .inl hnone
      · exact .inr ⟨j, held', hrun', hdangling'⟩
    · simp only [portLoop]
      rw [run_append_some (portTurn_run i c fate more hfate)]
      apply ih (i + 1) _ _ ?_ (portTurn_kept i fate hkept) hbehind' hrest
      intro j
      simp [sockets_notMem_strandedFile, hmore j]

/-! ### The end -/

/-- All that belongs to the listening sockets is given back. -/
theorem closeAll_run {c : Listeners} (hkept : ArraysKept c) (more : Multiset PortResource) :
    run (c.owned + more) (closeAllListeningSockets c).2 = some more := by
  cases hptr : c.socketsPtr with
  | none =>
    have hempty := hkept.sockets.mp hptr
    have hfds := hkept.fds
    rw [hptr] at hfds
    simp [closeAllListeningSockets, Listeners.owned, hempty, hptr, hfds, arrayOf]
  | some j =>
    have hfds := hkept.fds
    rw [hptr] at hfds
    have hloop : run ((c.sockets.map ownedBy).sum + (arrayOf .sockets (some j) + (arrayOf .fds (some j) + more)))
        (c.sockets.flatMap fun s =>
          useSockets c :: .give (.socket s.1) :: if s.2.lsa.isUnix then [.give (.file s.1)] else []) =
        some (arrayOf .sockets (some j) + (arrayOf .fds (some j) + more)) := by
      apply run_flatMap
      intro s _ rest hrest
      have hmem : PortResource.sockets j ∈ ownedBy s + rest := by
        apply Multiset.mem_add.mpr
        exact .inr (Multiset.mem_of_le hrest (by simp [arrayOf]))
      simp only [useSockets, hptr]
      rw [run_use hmem, ownedBy, Multiset.cons_add, run_give_head, fileOf]
      split_ifs <;> simp
    simp only [closeAllListeningSockets, Listeners.owned, hptr, hfds, add_assoc, Option.toList_some, List.map_cons,
      List.map_nil, List.append_assoc]
    rw [run_append_some hloop]
    simp only [arrayOf, Multiset.singleton_add, List.cons_append, List.nil_append, run_give_head, run_nil]

theorem initial_kept : ArraysKept ⟨[], none, none⟩ := ⟨by simp, rfl⟩

theorem initial_owned : Listeners.owned ⟨[], none, none⟩ = 0 := rfl

/-- A torn entry does not count. -/
theorem not_tears_of_ok {fates : List PortFate} (h : ∀ fate ∈ fates, fate.ok = true) (behind : Bool) :
    tears behind fates = false := by
  induction fates generalizing behind with
  | nil => rfl
  | cons fate fates ih =>
    have hrest := ih fun x hx => h x (by simp [hx])
    have hfate := h fate (by simp)
    cases fate with
    | torn so => cases hfate
    | refused ok => exact hrest behind
    | closed ok bound so => exact hrest behind
    | listed so => exact hrest true

theorem setPortsFates_value (fates : List PortFate) :
    (setPortsFates fates).1 = (if ∀ fate ∈ fates, fate.ok = true then fates.length else 0) ∧
      (tears false fates = false → (setPortsFates fates).2.1.sockets = listedFrom 0 fates) := by
  have hcount := portLoop_count 0 0 ⟨[], none, none⟩ fates
  rw [Nat.zero_add] at hcount
  have hall := List.countP_eq_length (p := PortFate.ok) (l := fates)
  refine ⟨?_, fun htears => ?_⟩
  · by_cases h : ∀ fate ∈ fates, fate.ok = true
    · have hok : (portLoop 0 0 ⟨[], none, none⟩ fates).1 = fates.length := by rw [hcount, hall.mpr h]
      simp [setPortsFates, hok, if_pos h]
    · have hok : (portLoop 0 0 ⟨[], none, none⟩ fates).1 ≠ fates.length := by
        rw [hcount]
        exact fun heq => h (hall.mp heq)
      simp [setPortsFates, hok, if_neg h]
  · obtain ⟨-, hsockets, -⟩ := portLoop_run 0 0 0 initial_kept (by simp) htears
    simp only [setPortsFates]
    split_ifs
    · simpa [closeAllListeningSockets] using hsockets
    · simpa using hsockets

/-- What the entries do with sockets, files and arrays. -/
theorem setPortsFates_run (fates : List PortFate) :
    (tears false fates = true → run 0 (setPortsFates fates).2.2 = none) ∧
      (tears false fates = false → run 0 (setPortsFates fates).2.2 =
        some ((if ∀ fate ∈ fates, fate.ok = true then (setPortsFates fates).2.1.owned else 0) +
          strandedFrom 0 fates)) := by
  have hvalue := portLoop_count 0 0 ⟨[], none, none⟩ fates
  rw [Nat.zero_add] at hvalue
  have hall := List.countP_eq_length (p := PortFate.ok) (l := fates)
  refine ⟨fun htears => ?_, fun htears => ?_⟩
  · have hbad : ¬ ∀ fate ∈ fates, fate.ok = true := by
      intro h
      rw [not_tears_of_ok h] at htears
      cases htears
    have hok : (portLoop 0 0 ⟨[], none, none⟩ fates).1 ≠ fates.length := by
      rw [hvalue]
      exact fun heq => hbad (hall.mp heq)
    have hloop := portLoop_torn 0 0 0 (by simp) initial_kept (by simp) htears
    rw [initial_owned, add_zero] at hloop
    simp only [setPortsFates, if_pos hok]
    rcases hloop with hnone | ⟨j, held, hrun, hdangling⟩
    · exact run_append_none hnone _
    · rw [run_append_some hrun]
      exact closeAll_dangling hdangling
  · obtain ⟨hkept, -, hrun⟩ := portLoop_run 0 0 0 initial_kept (by simp) htears
    rw [initial_owned, add_zero, add_zero] at hrun
    by_cases h : ∀ fate ∈ fates, fate.ok = true
    · have hok : (portLoop 0 0 ⟨[], none, none⟩ fates).1 = fates.length := by rw [hvalue, hall.mpr h]
      simpa [setPortsFates, hok, if_pos h] using hrun
    · have hok : (portLoop 0 0 ⟨[], none, none⟩ fates).1 ≠ fates.length := by
        rw [hvalue]
        exact fun heq => h (hall.mp heq)
      simp only [setPortsFates, if_pos hok, if_neg h, zero_add]
      rw [run_append_some hrun]
      exact closeAll_run hkept _

theorem tears_behind (fates : List PortFate) : tears true fates = true ↔ ∃ so, .torn so ∈ fates := by
  induction fates with
  | nil => simp [tears]
  | cons fate fates ih => cases fate <;> simp [tears, ih]

theorem tears_iff (fates : List PortFate) :
    tears false fates = true ↔
      ∃ first so mid so' rest, fates = first ++ PortFate.listed so :: (mid ++ PortFate.torn so' :: rest) := by
  have hcons (fate : PortFate) (fates : List PortFate) :
      (∃ first so mid so' rest, fate :: fates = first ++ PortFate.listed so :: (mid ++ PortFate.torn so' :: rest)) ↔
        (∃ so, fate = .listed so ∧ ∃ so', PortFate.torn so' ∈ fates) ∨
          ∃ first so mid so' rest, fates = first ++ PortFate.listed so :: (mid ++ PortFate.torn so' :: rest) := by
    constructor
    · rintro ⟨first, so, mid, so', rest, h⟩
      cases first with
      | nil =>
        obtain ⟨rfl, rfl⟩ := List.cons.inj h
        exact .inl ⟨so, rfl, so', by simp⟩
      | cons x first =>
        obtain ⟨rfl, rfl⟩ := List.cons.inj h
        exact .inr ⟨first, so, mid, so', rest, rfl⟩
    · rintro (⟨so, rfl, so', hmem⟩ | ⟨first, so, mid, so', rest, rfl⟩)
      · obtain ⟨mid, rest, rfl⟩ := List.append_of_mem hmem
        exact ⟨[], so, mid, so', rest, rfl⟩
      · exact ⟨fate :: first, so, mid, so', rest, rfl⟩
  induction fates with
  | nil => simp [tears]
  | cons fate fates ih =>
    refine Iff.trans ?_ ((or_congr_right ih).trans (hcons fate fates).symm)
    cases fate with
    | listed so =>
      have hmore : tears false fates = true → ∃ so', PortFate.torn so' ∈ fates := by
        intro h
        obtain ⟨first, so, mid, so', rest, rfl⟩ := ih.mp h
        exact ⟨so', by simp⟩
      simp only [tears, tears_behind, PortFate.listed.injEq, exists_eq_left']
      exact ⟨.inl, fun h => h.elim id hmore⟩
    | refused ok => simp [tears]
    | closed ok bound so => simp [tears]
    | torn so => simp [tears]

/-- A socket that was bound counts only where it listens. -/
theorem portFate_stranded (b : PortBuild) (sslReady : Bool) (backlog : List Byte) (entry : List Byte × Nat)
    (a : PortAnswers) (i : Nat) : (portFate b sslReady backlog entry a).ok = true →
      strandedFile i (portFate b sslReady backlog entry a) = 0 := by
  have hkeep (p : Prop) [Decidable p] (x y : PortFate) (hx : x.ok = true → strandedFile i x = 0)
      (hy : y.ok = true → strandedFile i y = 0) :
      (if p then x else y).ok = true → strandedFile i (if p then x else y) = 0 := by
    split
    · exact hx
    · exact hy
  unfold portFate
  cases parsePortString b entry.1 entry.2 with
  | none => simp [strandedFile]
  | some so =>
    dsimp only
    -- Before the socket is bound no file is left, and behind that a closed socket does not count.
    apply hkeep _ _ _ (by simp [strandedFile])
    apply hkeep _ _ _ (by simp [strandedFile])
    apply hkeep _ _ _ (by simp [strandedFile])
    apply hkeep _ _ _ (by simp [strandedFile])
    apply hkeep _ _ _ (by simp [strandedFile])
    apply hkeep _ _ _ (by simp [PortFate.ok])
    apply hkeep _ _ _ (by simp [PortFate.ok])
    cases a.address.bind so.lsa.updatePort with
    | none => simp [PortFate.ok]
    | some lsa =>
      apply hkeep _ _ _ (by simp [PortFate.ok])
      apply hkeep _ _ _ (by simp [PortFate.ok])
      simp [strandedFile]

theorem strandedFrom_ok {fates : List PortFate} (i : Nat)
    (h : ∀ fate ∈ fates, ∀ j, strandedFile j fate = 0) : strandedFrom i fates = 0 := by
  induction fates generalizing i with
  | nil => rfl
  | cons fate fates ih =>
    rw [strandedFrom, h fate (by simp) i, ih (i + 1) fun x hx => h x (by simp [hx]), add_zero]

/-- What `set_ports_option` does with sockets, files and arrays, whatever the system answers. It uses an array that it
gave back exactly where there is no memory for `listening_socket_fds` behind a listening socket. Elsewhere it returns
the number of entries and holds what listens, or returns 0 and holds nothing but the files of sockets that were
bound. -/
theorem setPortsOption_holds (b : PortBuild) (sslReady : Bool) (backlog list : List Byte)
    (answers : Nat → PortAnswers) :
    let fates := portFates b sslReady backlog list answers
    let r := setPortsOption b sslReady backlog list answers
    r.1 = (if ∀ fate ∈ fates, fate.ok = true then (portEntries list).length else 0) ∧
      (run 0 r.2.2 = none ↔
        ∃ first so mid so' rest, fates = first ++ PortFate.listed so :: (mid ++ PortFate.torn so' :: rest)) ∧
      (0 < r.1 → run 0 r.2.2 = some r.2.1.owned ∧ r.2.1.sockets = listedFrom 0 fates) ∧
      (r.1 = 0 → run 0 r.2.2 ≠ none → run 0 r.2.2 = some (strandedFrom 0 fates)) := by
  intro fates r
  have hlength : fates.length = (portEntries list).length := by simp [fates, portFates]
  have hstranded : (∀ fate ∈ fates, fate.ok = true) → strandedFrom 0 fates = 0 := by
    intro h
    apply strandedFrom_ok
    intro fate hfate j
    obtain ⟨e, -, rfl⟩ := List.mem_map.mp hfate
    exact portFate_stranded b sslReady backlog e.1 (answers e.2) j (h _ hfate)
  obtain ⟨hret, hsockets⟩ := setPortsFates_value fates
  obtain ⟨htorn, hkept⟩ := setPortsFates_run fates
  have hr : r = setPortsFates fates := rfl
  rw [← tears_iff, hr]
  refine ⟨?_, ⟨fun hnone => ?_, htorn⟩, fun hpos => ?_, fun hzero hrun => ?_⟩
  · rw [hret, hlength]
  · by_contra htears
    rw [hkept (by simpa using htears)] at hnone
    cases hnone
  · have hall : ∀ fate ∈ fates, fate.ok = true := by
      by_contra h
      rw [hret, if_neg h] at hpos
      cases hpos
    have htears := not_tears_of_ok hall false
    rw [hkept htears, if_pos hall, hstranded hall, add_zero]
    exact ⟨rfl, hsockets htears⟩
  · have htears : tears false fates = false := by
      cases h : tears false fates with
      | false => rfl
      | true => exact absurd (htorn h) hrun
    rw [hkept htears]
    by_cases hall : ∀ fate ∈ fates, fate.ok = true
    · rw [hret, if_pos hall] at hzero
      have hnil : fates = [] := List.eq_nil_of_length_eq_zero hzero
      simp [hnil, setPortsFates, portLoop, Listeners.owned, arrayOf]
    · rw [if_neg hall, zero_add]

end CivetWeb
