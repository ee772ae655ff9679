import CivetWeb.Bytes

namespace CivetWeb

/-- A byte at which `get_http_header_len` aborts its scan. -/
def malformedByte (c : Byte) : Bool := c < 128 && c != CR && c != LF && !isprint c

/-- The loop of `get_http_header_len` from index `i`; the list holds `buf[i..buflen)`. -/
def headerLenFrom (i : Nat) : List Byte → Int
  | [] => 0
  | c :: rest =>
    if malformedByte c then -1
    else if [LF, LF].isPrefixOf (c :: rest) then i + 2
    else if [CR, LF, CR, LF].isPrefixOf (c :: rest) then i + 4
    else headerLenFrom (i + 1) rest

def getHttpHeaderLen (buf : List Byte) (buflen : Nat) : Int := headerLenFrom 0 (buf.take buflen)

theorem headerLenFrom_le (i : Nat) (b : List Byte) : headerLenFrom i b ≤ i + b.length := by
  induction b generalizing i with
  | nil => simp [headerLenFrom]
  | cons c rest ih =>
    rw [headerLenFrom]
    split_ifs with h1 h2 h3
    · omega
    · have := (List.isPrefixOf_iff_prefix.mp h2).length_le
      simp only [List.length_cons, List.length_nil] at this ⊢
      omega
    · have := (List.isPrefixOf_iff_prefix.mp h3).length_le
      simp only [List.length_cons, List.length_nil] at this ⊢
      omega
    · have := ih (i + 1)
      simp only [List.length_cons]
      omega

/-- A blank line cut off by the end of the data leaves nothing to report. -/
private theorem headerLenFrom_cut (i : Nat) (b : List Byte)
    (h : b <+: [CR, LF, CR] ∨ b <+: [LF]) : headerLenFrom i b = 0 := by
  have hb : b ∈ [[], [CR], [CR, LF], [CR, LF, CR], [LF]] := by
    rcases h with h | h
    · rcases b with _ | ⟨x, _ | ⟨y, _ | ⟨z, w⟩⟩⟩ <;> simp_all [List.cons_prefix_cons]
    · rcases b with _ | ⟨x, w⟩ <;> simp_all [List.cons_prefix_cons]
  simp only [List.mem_cons, List.not_mem_nil, or_false] at hb
  rcases hb with rfl | rfl | rfl | rfl | rfl <;> rfl

private theorem cut_of_prefix_append (b e pat : List Byte) (h : pat <+: b ++ e) :
    pat <+: b ∨ b <+: pat.dropLast := by
  rcases Nat.lt_or_ge b.length pat.length with hl | hl
  · right
    have hb : b <+: pat := List.prefix_of_prefix_length_le (List.prefix_append b e) h hl.le
    obtain ⟨t, rfl⟩ := hb
    have ht : t ≠ [] := by
      intro ht
      simp [ht] at hl
    rw [List.dropLast_append_of_ne_nil ht]
    exact List.prefix_append b _
  · left
    exact List.prefix_of_prefix_length_le h (List.prefix_append b e) hl

/-- Once a prefix of the data is decided, more data does not change the decision. -/
theorem headerLenFrom_append (i : Nat) (b e : List Byte) (h : headerLenFrom i b ≠ 0) :
    headerLenFrom i (b ++ e) = headerLenFrom i b := by
  induction b generalizing i with
  | nil => simp [headerLenFrom] at h
  | cons c rest ih =>
    have keep (pat : List Byte) (hcut : pat.dropLast <+: [CR, LF, CR] ∨ pat.dropLast <+: [LF]) :
        pat.isPrefixOf (c :: (rest ++ e)) = pat.isPrefixOf (c :: rest) := by
      rw [Bool.eq_iff_iff, List.isPrefixOf_iff_prefix, List.isPrefixOf_iff_prefix,
        ← List.cons_append]
      constructor
      · intro hp
        rcases cut_of_prefix_append (c :: rest) e pat hp with hp | hp
        · exact hp
        · exact absurd (headerLenFrom_cut i _ (hcut.imp hp.trans hp.trans)) h
      · intro hp
        exact hp.trans (List.prefix_append _ e)
    have h2 := keep [LF, LF] (Or.inr (by simp))
    have h4 := keep [CR, LF, CR, LF] (Or.inl (by simp))
    simp only [List.cons_append, headerLenFrom, h2, h4] at h ⊢
    split_ifs at h ⊢ with a1 a2 a3
    · rfl
    · rfl
    · rfl
    · exact ih (i + 1) h

/-- Shifting the start index shifts a found end and keeps the other results. -/
theorem headerLenFrom_shift (i k : Nat) (b : List Byte) (h : 0 < headerLenFrom i b) :
    headerLenFrom (i + k) b = headerLenFrom i b + k := by
  induction b generalizing i with
  | nil => simp [headerLenFrom] at h
  | cons c rest ih =>
    rw [headerLenFrom] at h ⊢
    rw [headerLenFrom]
    split_ifs at h ⊢ with h1 h2 h3
    · omega
    · push_cast
      omega
    · push_cast
      omega
    · have := ih (i + 1) h
      rw [show i + k + 1 = i + 1 + k by omega, this]

/-- Bytes of a line: anything the scan accepts that is neither CR nor LF. -/
def lineByte (c : Byte) : Bool := !malformedByte c && c != CR && c != LF

/-- The scan passes over the text of a line. -/
theorem headerLenFrom_text (i : Nat) (w rest : List Byte) (hw : ∀ a ∈ w, lineByte a = true) :
    headerLenFrom i (w ++ rest) = headerLenFrom (i + w.length) rest := by
  induction w generalizing i with
  | nil => simp
  | cons a w ih =>
    have ha := hw a (by simp)
    simp only [lineByte, Bool.and_eq_true, Bool.not_eq_true', bne_iff_ne] at ha
    obtain ⟨⟨hm, hcr⟩, hlf⟩ := ha
    simp only [List.cons_append, headerLenFrom, hm, List.isPrefixOf, Bool.false_eq_true, if_false,
      beq_eq_false_iff_ne.mpr (Ne.symm hcr), beq_eq_false_iff_ne.mpr (Ne.symm hlf), Bool.false_and]
    rw [ih (i + 1) (fun b hb => hw b (by simp [hb]))]
    simp only [List.length_cons]
    congr 1
    omega

end CivetWeb
