import CivetWeb.Form.UrlEncoded

namespace CivetWeb

section
variable {W : Type} (env : FormHandler W)

/-- The end of a turn of the loop over a query string: the value is stored where that was asked for,
and the loop goes on at `next`. -/
def queryEnd (storage : UInt32) (val : List Byte) (vallen : Nat) (next : List Byte)
    (s : FormState W) : (List Byte × FormState W) ⊕ FormResult W :=
  let (stop, s) :=
    if storage = MG_FORM_FIELD_STORAGE_STORE then
      let s := writeStore env val vallen (openStore env s)
      if s.fpOpen then closeStore env s else (false, s)
    else (false, s)
  if stop ∨ storageAborts storage then .inr (s.fieldCount, s) else .inl (next, s)

/-- A turn of the loop over a query string, at `data`. -/
def queryStep (p : List Byte × FormState W) : (List Byte × FormState W) ⊕ FormResult W :=
  let (data, s) := p
  if deref data = NUL then .inr (s.fieldCount, s)
  else
    match strchrAt data EQUALS with
    | none => .inr (s.fieldCount, s)
    | some keylen =>
      let s := { s with fieldCount := s.fieldCount + 1, path := [] }
      let (storage, s) := urlEncodedFieldFound env (data.take keylen) none s
      let val := data.drop (keylen + 1)
      let found := strchrAt val AMPERSAND
      let vallen := found.getD (cstr val).length
      if storage = MG_FORM_FIELD_STORAGE_GET then
        let ((r, vallen), s) := urlEncodedFieldGet env (data.take keylen) val vallen s
        if r = MG_FORM_FIELD_HANDLE_ABORT then .inr (s.fieldCount, s)
        else
          let storage := if r = MG_FORM_FIELD_HANDLE_NEXT then MG_FORM_FIELD_STORAGE_SKIP else storage
          queryEnd env storage val vallen (val.drop ((found.map (· + 1)).getD vallen)) s
      else queryEnd env storage val vallen (val.drop ((found.map (· + 1)).getD vallen)) s

/-- Every turn leaves less of the query string. -/
theorem queryStep_shrinks (data : List Byte) (s : FormState W) (q : List Byte × FormState W)
    (h : queryStep env (data, s) = .inl q) : q.1.length < data.length := by
  have hend : ∀ storage val vallen next (t : FormState W),
      queryEnd env storage val vallen next t = .inl q → q.1 = next := by
    intro storage val vallen next t hq
    unfold queryEnd at hq
    dsimp only at hq
    split_ifs at hq <;> cases hq <;> rfl
  unfold queryStep at h
  dsimp only at h
  by_cases hnul : deref data = NUL
  · rw [if_pos hnul] at h
    cases h
  rw [if_neg hnul] at h
  have hpos : 0 < data.length := by
    cases data with
    | nil => exact absurd rfl hnul
    | cons c data => simp
  cases hk : strchrAt data EQUALS with
  | none => simp [hk] at h
  | some keylen =>
    simp only [hk] at h
    have hshort : ∀ k, ((data.drop (keylen + 1)).drop k).length < data.length := by
      intro k
      rw [List.length_drop, List.length_drop]
      omega
    by_cases hg : (urlEncodedFieldFound env (data.take keylen) none
        { s with fieldCount := s.fieldCount + 1, path := [] }).1 = MG_FORM_FIELD_STORAGE_GET
    · rw [if_pos hg] at h
      split_ifs at h
      · rw [hend _ _ _ _ _ h]
        exact hshort _
      · rw [hend _ _ _ _ _ h]
        exact hshort _
    · rw [if_neg hg] at h
      rw [hend _ _ _ _ _ h]
      exact hshort _

/-- The loop over a query string ends. -/
theorem queryStep_halts (data : List Byte) (s : FormState W) :
    Machine.Halts (queryStep env) (data, s) := by
  apply Machine.halts_of_measure (queryStep env) (fun _ => True) (fun p => p.1.length)
  · intro p q _ h
    exact ⟨trivial, queryStep_shrinks env p.1 p.2 q h⟩
  · trivial

end

end CivetWeb
