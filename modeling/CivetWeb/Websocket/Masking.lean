import CivetWeb.Websocket.Messages

namespace CivetWeb

theorem maskFrom_getElem? (mask : List Byte) (i j : Nat) (data : List Byte) :
    (maskFrom mask i data)[j]? = (data[j]?).map fun c => c ^^^ mask.getD ((i + j) % 4) 0 := by
  induction data generalizing i j with
  | nil => rfl
  | cons c data ih =>
    cases j with
    | zero => rfl
    | succ j =>
      have hij : i + 1 + j = i + (j + 1) := by omega
      rw [maskFrom, List.getElem?_cons_succ, List.getElem?_cons_succ, ih, hij]

/-- A message that is unmasked by the reader is the one that `mask_data` makes of it. -/
theorem wsMessage_masked {W : Type} (ctx : WsContext W) (aligned : Bool) (mop : Byte) (key : UInt32)
    (payload : List Byte) (s : WsState W) :
    wsMessage ctx mop (wordBytes key) payload s = wsMessage ctx mop [] (maskData aligned payload key) s := by
  have hmask : (if wordBytes key ≠ [] then maskFrom (wordBytes key) 0 payload else payload) =
      maskData aligned payload key := by
    rw [if_pos (show wordBytes key ≠ [] from List.cons_ne_nil _ _), maskData_eq]
  unfold wsMessage
  rw [hmask]
  rfl

/-- `mask_data` puts the byte `i % 4` of the key on the byte `i`, aligned or not, and takes it off again; it is what the
reader does with the payload of a frame with this key, wherever the payload is cut into what is in the queue and what
is read from the socket. -/
theorem maskData_unmasks {W : Type} (ctx : WsContext W) (room : Nat) :
    (∀ (aligned : Bool) (data : List Byte) (key : UInt32) (i : Nat),
      (maskData aligned data key)[i]? = (data[i]?).map fun c => c ^^^ (wordBytes key).getD (i % 4) 0) ∧
    (∀ (aligned aligned' : Bool) (data : List Byte) (key : UInt32),
      maskData aligned' (maskData aligned data key) key = data) ∧
    ∀ (aligned : Bool) (key : UInt32) (headerLen : Nat) (payload rest : List Byte) (s : WsState W),
      frameHead s.queue = .head headerLen 4 payload.length → headerLen ≤ s.queue.length →
      (s.queue.drop (headerLen - 4)).take 4 = wordBytes key →
      s.queue.drop headerLen ++ sockBytes s.sock = payload ++ rest → Delivers s.sock →
      ctx.mustClose s.world = false → (∀ n w, (ctx.mgMalloc n w).1 = true) →
        ∃ a t, Machine.Reaches (readWebsocket ctx room) (.loop s) a ∧
          readWebsocket ctx room a = wsMessage ctx (s.queue.getD 0 0) [] (maskData aligned payload key) t ∧
          t.queue ++ sockBytes t.sock = rest := by
  refine ⟨?_, ?_, ?_⟩
  · intro aligned data key i
    rw [maskData_eq, maskFrom_getElem?, Nat.zero_add]
  · intro aligned aligned' data key
    rw [maskData_eq, maskData_eq, maskFrom_twice]
  · intro aligned key headerLen payload rest s hhead hfull hkey hstream hdelivers hopen hmalloc
    obtain ⟨a, t, hreach, hstep, hrest, -⟩ :=
      reaches_frame ctx room headerLen 4 payload rest s hhead hfull hstream hdelivers hopen hmalloc
    rw [if_pos (by decide), hkey, wsMessage_masked ctx aligned] at hstep
    exact ⟨a, t, hreach, hstep, hrest⟩

/-- The header of the greeting and the first byte of its text are in the queue. -/
def halfGreeted : WsState Unit :=
  { greeted with
    queue := [129, 130, 1, 2, 3, 4, 105]
    sock := [.timeout, .data [107, 136, 0]] }

theorem maskData_unmasks_half :
    ∃ a t, Machine.Reaches (readWebsocket echoContext 14) (.loop halfGreeted) a ∧
      readWebsocket echoContext 14 a = wsMessage echoContext 129 [] (ascii "hi") t ∧
      t.queue ++ sockBytes t.sock = [136, 0] := by
  have htext : maskData true [105, 107] 0x04030201 = ascii "hi" := by decide
  rw [← htext]
  exact (maskData_unmasks echoContext 14).2.2 true 0x04030201 6 [105, 107] [136, 0] halfGreeted (by decide) (by decide)
    (by decide) rfl (by simp [Delivers, halfGreeted]) rfl fun _ _ => rfl

end CivetWeb
