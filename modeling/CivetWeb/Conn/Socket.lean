import CivetWeb.Bytes
import Mathlib.Data.List.Chain

namespace CivetWeb

/-- What one look at the client's socket can find. `data []` is a peer that closed
its side; `tryAgain` is a poll that ran out before the request timeout did,
`timeout` one behind it; a `stop` stays. -/
inductive NetEvent where
  | data (bs : List Byte)
  | tryAgain
  | timeout
  | error
  | stop
  deriving DecidableEq, Repr

/-- The stop flag as it is tested in front of a read. -/
def stopFlag (sock : List NetEvent) : Bool := sock.head? == some .stop

/-- The outcome of `pull_inner`: bytes, -1 with the clock's verdict, or -2. -/
inductive PullInner where
  | bytes (bs : List Byte)
  | timeout (expired : Bool)
  | error
  deriving DecidableEq, Repr

/-- `pull_inner` on a socket, with what the socket still holds. -/
def pullInner (sock : List NetEvent) (len : Nat) : PullInner × List NetEvent :=
  match sock with
  | [] => (.error, [])
  | .data bs :: s =>
    if bs = [] then (.error, s)
    else if len < bs.length then (.bytes (bs.take len), .data (bs.drop len) :: s)
    else (.bytes bs, s)
  | .tryAgain :: s => (.timeout false, s)
  | .timeout :: s => (.timeout true, s)
  | .error :: s => (.error, s)
  | .stop :: s => (.error, .stop :: s)

/-- The loop of `pull_all`: the bytes read, whether an error ended it, the socket. -/
structure PullAll where
  bytes : List Byte
  failed : Bool
  sock : List NetEvent
  deriving DecidableEq, Repr

def pullLoop : List NetEvent → Nat → PullAll
  | sock, 0 => ⟨[], false, sock⟩
  | [], _ + 1 => ⟨[], true, []⟩
  | .stop :: s, _ + 1 => ⟨[], false, .stop :: s⟩
  | .tryAgain :: s, len + 1 => pullLoop s (len + 1)
  | .timeout :: s, _ + 1 => ⟨[], false, s⟩
  | .error :: s, _ + 1 => ⟨[], true, s⟩
  | .data bs :: s, len + 1 =>
    if bs = [] then ⟨[], true, s⟩
    else if len + 1 < bs.length then ⟨bs.take (len + 1), false, .data (bs.drop (len + 1)) :: s⟩
    else
      let p := pullLoop s (len + 1 - bs.length)
      ⟨bs ++ p.bytes, p.failed, p.sock⟩

/-- The loop goes by what `pull_inner` returns. -/
theorem pullLoop_pullInner (sock : List NetEvent) (len : Nat) (hlen : 0 < len)
    (hstop : stopFlag sock = false) :
    pullLoop sock len =
      match pullInner sock len with
      | (.error, s) => ⟨[], true, s⟩
      | (.timeout expired, s) => if expired then ⟨[], false, s⟩ else pullLoop s len
      | (.bytes bs, s) =>
        let p := pullLoop s (len - bs.length)
        ⟨bs ++ p.bytes, p.failed, p.sock⟩ := by
  obtain ⟨n, rfl⟩ : ∃ n, len = n + 1 := ⟨len - 1, by omega⟩
  cases sock with
  | nil => rfl
  | cons e s =>
    cases e with
    | data bs =>
      rw [pullLoop, pullInner]
      by_cases h1 : bs = []
      · simp [h1]
      by_cases h2 : n + 1 < bs.length
      · have htake : n + 1 - (bs.take (n + 1)).length = 0 := by
          rw [List.length_take]
          omega
        simp only [h1, h2, if_true, if_false, htake, pullLoop, List.append_nil]
      · simp [h1, h2]
    | tryAgain => rfl
    | timeout => rfl
    | error => rfl
    | stop => cases hstop

/-- `pull_all`; `none` is its -1. -/
def pullAll (sock : List NetEvent) (len : Nat) : Option (List Byte) × List NetEvent :=
  let p := pullLoop sock len
  (if p.failed && p.bytes.isEmpty then none else some p.bytes, p.sock)

/-- The bytes a socket still holds. -/
def sockBytes : List NetEvent → List Byte
  | [] => []
  | .data bs :: s => bs ++ sockBytes s
  | _ :: s => sockBytes s

/-- A socket that delivers its whole stream: once it fails, nothing follows. -/
def Steady : List NetEvent → Prop
  | [] => True
  | .data bs :: s => if bs = [] then sockBytes s = [] else Steady s
  | .tryAgain :: s => Steady s
  | .timeout :: s => sockBytes s = []
  | .error :: s => sockBytes s = []
  | .stop :: s => sockBytes s = []

theorem steady_of_empty (sock : List NetEvent) (h : sockBytes sock = []) : Steady sock := by
  induction sock with
  | nil => trivial
  | cons e s ih =>
    cases e with
    | data bs =>
      simp only [sockBytes, List.append_eq_nil_iff] at h
      simp [Steady, h.1, h.2]
    | tryAgain => exact ih h
    | timeout => exact h
    | error => exact h
    | stop => exact h

/-- No read loses or reorders a byte, and none delivers more than it was asked for. -/
theorem pullLoop_split (sock : List NetEvent) (len : Nat) :
    sockBytes sock = (pullLoop sock len).bytes ++ sockBytes (pullLoop sock len).sock ∧
      (pullLoop sock len).bytes.length ≤ len := by
  induction sock generalizing len with
  | nil => cases len <;> simp [pullLoop, sockBytes]
  | cons e s ih =>
    cases len with
    | zero => simp [pullLoop]
    | succ n =>
      cases e with
      | data bs =>
        rw [pullLoop]
        split_ifs with h1 h2
        · simp [sockBytes, h1]
        · refine ⟨by simp [sockBytes, ← List.append_assoc], ?_⟩
          rw [List.length_take]
          omega
        · obtain ⟨hs, hl⟩ := ih (n + 1 - bs.length)
          refine ⟨by simp [sockBytes, hs], ?_⟩
          simp only [List.length_append]
          omega
      | tryAgain => simpa [pullLoop, sockBytes] using ih (n + 1)
      | timeout => simp [pullLoop, sockBytes]
      | error => simp [pullLoop, sockBytes]
      | stop => simp [pullLoop, sockBytes]

/-- A steady socket delivers all that was asked for and all that there is. -/
theorem pullLoop_steady (sock : List NetEvent) (len : Nat) (h : Steady sock) :
    (pullLoop sock len).bytes = (sockBytes sock).take len ∧
      sockBytes (pullLoop sock len).sock = (sockBytes sock).drop len ∧
      Steady (pullLoop sock len).sock := by
  induction sock generalizing len with
  | nil => cases len <;> simp [pullLoop, sockBytes, Steady]
  | cons e s ih =>
    cases len with
    | zero => simpa [pullLoop] using h
    | succ n =>
      cases e with
      | data bs =>
        rw [pullLoop]
        rw [Steady] at h
        split_ifs at h ⊢ with h1 h2
        · simp [sockBytes, h1, h, steady_of_empty s h]
        · refine ⟨?_, ?_, ?_⟩
          · rw [sockBytes, List.take_append_of_le_length (by omega)]
          · rw [sockBytes, sockBytes, List.drop_append_of_le_length (by omega)]
          · have hne : bs.drop (n + 1) ≠ [] := by
              intro hnil
              rw [List.drop_eq_nil_iff] at hnil
              omega
            rw [Steady, if_neg hne]
            exact h
        · obtain ⟨hb, hs, hsteady⟩ := ih (n + 1 - bs.length) h
          have hall : bs.length ≤ n + 1 := by omega
          refine ⟨?_, ?_, hsteady⟩
          · dsimp only
            rw [hb, sockBytes, List.take_append, List.take_of_length_le hall]
          · dsimp only
            rw [hs, sockBytes, List.drop_append, List.drop_eq_nil_of_le hall, List.nil_append]
      | tryAgain => simpa [pullLoop, sockBytes] using ih (n + 1) h
      | timeout =>
        rw [Steady] at h
        simp [pullLoop, sockBytes, h, steady_of_empty s h]
      | error =>
        rw [Steady] at h
        simp [pullLoop, sockBytes, h, steady_of_empty s h]
      | stop =>
        rw [Steady] at h
        simp [pullLoop, sockBytes, h, Steady]

/-- What reads of one byte find on a socket one after another: a byte, or nothing. At the end of the list and behind
it they find nothing. -/
def sockWire : List NetEvent → List (Option Byte)
  | [] => []
  | .data bs :: s => if bs = [] then none :: sockWire s else bs.map some ++ sockWire s
  | .tryAgain :: s => sockWire s
  | .timeout :: s => none :: sockWire s
  | .error :: s => none :: sockWire s
  | .stop :: _ => []

/-- Bytes that are taken off a wire, and what is left of it: all that was asked for is there, or the first read that
finds nothing is gone. -/
inductive Taken (wire : List (Option Byte)) (len : Nat) (bs : List Byte) (rest : List (Option Byte)) : Prop where
  | full : wire = bs.map some ++ rest → bs.length = len → Taken wire len bs rest
  | short (more : List (Option Byte)) : wire = bs.map some ++ more → bs.length < len → more.head?.join = none →
      rest = more.tail → Taken wire len bs rest

theorem Taken.le {wire rest : List (Option Byte)} {len : Nat} {bs : List Byte} (h : Taken wire len bs rest) :
    bs.length ≤ len := by
  cases h with
  | full _ hlen => exact hlen.le
  | short _ _ hlt _ _ => exact hlt.le

theorem Taken.append {wire rest : List (Option Byte)} {len : Nat} {bs : List Byte} (front : List Byte)
    (h : Taken wire len bs rest) : Taken (front.map some ++ wire) (front.length + len) (front ++ bs) rest := by
  cases h with
  | full hw hlen =>
    refine .full ?_ (by rw [List.length_append, hlen])
    rw [hw, List.map_append, List.append_assoc]
  | short more hw hlt hnone hrest =>
    refine .short more ?_ (by rw [List.length_append]; omega) hnone hrest
    rw [hw, List.map_append, List.append_assoc]

/-- Where nothing is asked for, nothing is taken. -/
theorem Taken.zero {wire rest : List (Option Byte)} {bs : List Byte} (h : Taken wire 0 bs rest) :
    bs = [] ∧ rest = wire := by
  cases h with
  | full hw hlen =>
    have hnil := List.eq_nil_of_length_eq_zero hlen
    rw [hw, hnil]
    exact ⟨rfl, rfl⟩
  | short _ _ hlt _ _ => exact absurd hlt (Nat.not_lt_zero _)

/-- A read that finds nothing takes nothing. -/
theorem Taken.nil {wire rest : List (Option Byte)} {len : Nat} {bs : List Byte} (h : Taken wire len bs rest)
    (hnone : wire.head?.join = none) : bs = [] := by
  have hno (more : List (Option Byte)) (hw : wire = bs.map some ++ more) : bs = [] := by
    cases bs with
    | nil => rfl
    | cons b bs => simp [hw] at hnone
  cases h with
  | full hw _ => exact hno rest hw
  | short more hw _ _ _ => exact hno more hw

theorem pullLoop_taken (sock : List NetEvent) (len : Nat) :
    Taken (sockWire sock) len (pullLoop sock len).bytes (sockWire (pullLoop sock len).sock) := by
  induction sock generalizing len with
  | nil =>
    cases len with
    | zero => exact .full rfl rfl
    | succ n => exact .short [] rfl (Nat.succ_pos n) rfl rfl
  | cons e s ih =>
    cases len with
    | zero => exact .full rfl rfl
    | succ n =>
      cases e with
      | data bs =>
        rw [pullLoop, sockWire]
        by_cases hnil : bs = []
        · rw [if_pos hnil, if_pos hnil]
          exact .short (none :: sockWire s) rfl (Nat.succ_pos n) rfl rfl
        rw [if_neg hnil, if_neg hnil]
        by_cases hmore : n + 1 < bs.length
        · have hne : bs.drop (n + 1) ≠ [] := fun h => by
            rw [List.drop_eq_nil_iff] at h
            omega
          rw [if_pos hmore, sockWire, if_neg hne]
          refine .full ?_ (List.length_take_of_le hmore.le)
          rw [← List.append_assoc, ← List.map_append, List.take_append_drop]
        · rw [if_neg hmore]
          have hrest := (ih (n + 1 - bs.length)).append bs
          rwa [show bs.length + (n + 1 - bs.length) = n + 1 by omega] at hrest
      | tryAgain => exact ih (n + 1)
      | timeout => exact .short (none :: sockWire s) rfl (Nat.succ_pos n) rfl rfl
      | error => exact .short (none :: sockWire s) rfl (Nat.succ_pos n) rfl rfl
      | stop => exact .short [] rfl (Nat.succ_pos n) rfl rfl

/-- A wire on which nothing is found behind a read that finds nothing. -/
def Unbroken (wire : List (Option Byte)) : Prop := wire.IsChain fun a b => a = none → b = none

theorem sockWire_empty (sock : List NetEvent) (h : sockBytes sock = []) : ∀ x ∈ sockWire sock, x = none := by
  induction sock with
  | nil => exact fun x hx => absurd hx List.not_mem_nil
  | cons e s ih =>
    have hmore (hs : sockBytes s = []) : ∀ x ∈ none :: sockWire s, x = none := by
      simpa using ih hs
    cases e with
    | data bs =>
      rw [sockBytes, List.append_eq_nil_iff] at h
      rw [sockWire, if_pos h.1]
      exact hmore h.2
    | tryAgain => exact ih h
    | timeout => exact hmore h
    | error => exact hmore h
    | stop => exact fun x hx => absurd hx List.not_mem_nil

theorem unbroken_append (bs : List Byte) (wire : List (Option Byte)) (h : Unbroken wire) :
    Unbroken (bs.map some ++ wire) := by
  induction bs with
  | nil => exact h
  | cons b bs ih =>
    refine List.isChain_cons.mpr ⟨fun _ _ hb => ?_, ih⟩
    cases hb

theorem unbroken_steady (sock : List NetEvent) (h : Steady sock) : Unbroken (sockWire sock) := by
  have hover (s : List NetEvent) (hs : sockBytes s = []) : Unbroken (none :: sockWire s) := by
    have hall : ∀ x ∈ none :: sockWire s, x = none := by simpa using sockWire_empty s hs
    exact List.Pairwise.isChain (List.pairwise_of_forall_mem_list fun _ _ b hb _ => hall b hb)
  induction sock with
  | nil => exact List.isChain_nil
  | cons e s ih =>
    cases e with
    | data bs =>
      rw [Steady] at h
      rw [sockWire]
      split_ifs at h ⊢
      · exact hover s h
      · exact unbroken_append bs _ (ih h)
    | tryAgain => exact ih h
    | timeout => exact hover s h
    | error => exact hover s h
    | stop => exact List.isChain_nil

theorem Unbroken.no_byte {pre post : List (Option Byte)} {b : Byte} (h : Unbroken (pre ++ none :: some b :: post)) :
    False := by
  have hrest := (List.isChain_append.mp h).2.1
  exact absurd ((List.isChain_cons_cons.mp hrest).1 rfl) (by simp)

/-- `pull_all` delivers the next bytes, and reports an error only where it has none; a steady socket delivers all that
was asked for and all that there is. -/
theorem pullAll_taken (sock : List NetEvent) (len : Nat) :
    ∃ bs, ((pullAll sock len).1 = some bs ∨ (pullAll sock len).1 = none ∧ bs = []) ∧
      sockBytes sock = bs ++ sockBytes (pullAll sock len).2 ∧
      Taken (sockWire sock) len bs (sockWire (pullAll sock len).2) ∧
      (Steady sock → bs = (sockBytes sock).take len ∧ Steady (pullAll sock len).2) := by
  refine ⟨(pullLoop sock len).bytes, ?_, (pullLoop_split sock len).1, pullLoop_taken sock len, fun h => ?_⟩
  · rw [pullAll]
    dsimp only
    split_ifs with hf
    · simp only [Bool.and_eq_true, List.isEmpty_iff] at hf
      exact .inr ⟨rfl, hf.2⟩
    · exact .inl rfl
  · obtain ⟨hb, -, hsteady⟩ := pullLoop_steady sock len h
    exact ⟨hb, hsteady⟩

end CivetWeb
