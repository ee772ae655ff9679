import CivetWeb.Form.FieldsMove

namespace CivetWeb

/-- Bodies that end with an escape cut short in the value of their last field. The fields before it
have to be such that the loop gets through them: keys that fit into the buffer and can be decoded, and no
NUL; the value before the escape must hold nothing that makes `mg_url_decode` fail. -/
inductive EndsInEscape : List Byte → Prop where
  | last (key value tail : List Byte) : FieldName key →
      (∀ a ∈ value, SP < a ∧ a ≠ AMPERSAND) → CutEscape tail →
      EndsInEscape (key ++ EQUALS :: (value ++ tail))
  | next (key value rest : List Byte) : FieldName key →
      (∀ a ∈ value, a ≠ NUL ∧ a ≠ AMPERSAND) → EndsInEscape rest →
      EndsInEscape (key ++ EQUALS :: (value ++ AMPERSAND :: rest))

section
variable {W : Type} (unread : W → List Byte)

/-- How the rest of the body bears on the whole of it: an escape cut short at the end of the rest
is one at the end of the body. -/
def FieldsAt.Within (body : List Byte) (p : FieldsAt W) : Prop :=
  match p with
  | .field s => EndsInEscape (FieldsAt.ahead unread (.field s)) → EndsInEscape body
  | .block f s =>
    (∀ value rest, FieldsAt.ahead unread (.block f s) = value ++ AMPERSAND :: rest →
      (∀ a ∈ value, a ≠ NUL ∧ a ≠ AMPERSAND) → EndsInEscape rest → EndsInEscape body) ∧
    (f.storage = MG_FORM_FIELD_STORAGE_GET → ∀ value tail,
      FieldsAt.ahead unread (.block f s) = value ++ tail →
      (∀ a ∈ value, SP < a ∧ a ≠ AMPERSAND) → CutEscape tail → EndsInEscape body)

theorem FieldsMove.within (body : List Byte) (p q : FieldsAt W) (h : FieldsMove unread p q)
    (hp : p.Within unread body) : q.Within unread body := by
  cases h with
  | key s f s' key hname hahead _ =>
    rw [FieldsAt.Within, hahead] at hp
    constructor
    · intro value rest hv hplain hrest
      rw [hv] at hp
      exact hp (EndsInEscape.next key value rest hname hplain hrest)
    · intro _ value tail hv hplain hcut
      rw [hv] at hp
      exact hp (EndsInEscape.last key value tail hname hplain hcut)
  | pair f s s' value hplain hahead _ =>
    intro hrest
    exact hp.1 value _ hahead hplain hrest
  | more f s f' s' used hplain hahead hget _ _ =>
    constructor
    · intro value rest hv hplain' hrest
      apply hp.1 (used ++ value) rest _ _ hrest
      · rw [hahead, hv, List.append_assoc]
      · intro a ha
        exact (List.mem_append.mp ha).elim (hplain a) (hplain' a)
    · intro hg value tail hv hplain' hcut
      obtain ⟨hg', habove⟩ := hget hg
      apply hp.2 hg' (used ++ value) tail _ _ hcut
      · rw [hahead, hv, List.append_assoc]
      · intro a ha
        exact (List.mem_append.mp ha).elim (fun h => ⟨habove a h, (hplain a h).2⟩) (hplain' a)

theorem FieldsAt.Within.of_stalled (body : List Byte) (p : FieldsAt W)
    (hp : p.Within unread body) (hs : p.Stalled unread) : EndsInEscape body := by
  cases p with
  | field s => exact hs.elim
  | block f s =>
    obtain ⟨hg, hval, hcut, hun⟩ := hs
    apply hp.2 hg [] s.buf _ (by simp) hcut
    simp only [FieldsAt.ahead]
    rw [hval, hun, List.drop_zero, List.append_nil, List.nil_append]

/-- Goes down with every step that does not stall. -/
def FieldsAt.measure : FieldsAt W → Nat
  | .field s => 2 * (FieldsAt.ahead unread (.field s)).length + (unread s.world).length
  | .block f s => 2 * (FieldsAt.ahead unread (.block f s)).length + (unread s.world).length +
      (if f.storage = MG_FORM_FIELD_STORAGE_GET then 1 else 0)

theorem FieldsMove.measure_lt (p q : FieldsAt W) (h : FieldsMove unread p q)
    (hq : ¬ q.Stalled unread) : q.measure unread < p.measure unread := by
  cases h with
  | key s f s' key _ hahead hless =>
    simp only [FieldsAt.measure]
    rw [hahead, List.length_append, List.length_cons]
    split_ifs <;> omega
  | pair f s s' value _ hahead hless =>
    simp only [FieldsAt.measure]
    rw [hahead, List.length_append, List.length_cons]
    omega
  | more f s f' s' used _ hahead hget hless hprogress =>
    simp only [FieldsAt.measure]
    rw [hahead, List.length_append]
    have hbit : (if f'.storage = MG_FORM_FIELD_STORAGE_GET then 1 else 0) ≤
        (if f.storage = MG_FORM_FIELD_STORAGE_GET then 1 else 0) := by
      by_cases hg : f'.storage = MG_FORM_FIELD_STORAGE_GET
      · rw [if_pos hg, if_pos (hget hg).1]
      · rw [if_neg hg]
        omega
    obtain hused | hread | ⟨hg, hg'⟩ | hstall := hprogress
    · have := List.length_pos_of_ne_nil hused
      omega
    · omega
    · rw [if_pos hg, if_neg hg']
      omega
    · exact absurd hstall hq

end

/-- On a body that does not end in an escape cut short, the loops end: for every way the
body is cut into reads, and whatever the callbacks answer. -/
theorem fieldsStep_halts {W : Type} (env : FormHandler W) (unread : W → List Byte)
    (hread : BodyReader env unread) (w : W) (hbody : ¬ EndsInEscape (unread w)) :
    Machine.Halts (fieldsStep env) (.field (formInit w)) := by
  apply Machine.halts_of_measure (fieldsStep env)
    (fun p => p.Fits ∧ p.Within unread (unread w)) (FieldsAt.measure unread)
  · intro p q hp hstep
    obtain ⟨hmove, hfits⟩ := fieldsStep_move env hread p q hp.1 hstep
    have hwithin := FieldsMove.within unread (unread w) p q hmove hp.2
    refine ⟨⟨hfits, hwithin⟩, FieldsMove.measure_lt unread p q hmove ?_⟩
    intro hstall
    exact hbody (FieldsAt.Within.of_stalled unread (unread w) q hwithin hstall)
  · refine ⟨⟨rfl, Nat.zero_le _, ?_⟩, ?_⟩
    · intro f s h
      cases h
    · intro h
      simpa [FieldsAt.ahead, formInit] using h

end CivetWeb
