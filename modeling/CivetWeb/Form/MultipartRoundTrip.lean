import CivetWeb.Form.HandleForm
import CivetWeb.Form.MultipartReader

namespace CivetWeb

/-- A byte of a token: printable, and none of the separators. -/
def tokenByte (c : Byte) : Bool :=
  SP < c && c < 127 && !(c ∈ ascii "()<>@,;:\\\"/[]?=")

theorem tokenByte_facts : ∀ c, tokenByte c = true → c ≠ NUL ∧ c ≠ CR ∧ c ≠ QUOTE :=
  byte_all _ (by decide +kernel)

/-- A request with a multipart body. -/
structure MultipartRequest (req : FormRequest) (boundary : List Byte) : Prop where
  body : req.hasBodyData = true
  type : req.contentType = some (ascii "multipart/form-data; boundary=" ++ boundary)

/-- A multipart body is delivered part by part to every client that takes all of it. -/
def MultipartRoundTrip (boundary : List Byte) (parts : List FormPart) : Prop :=
  ∀ {W : Type} (env : FormHandler W) (unread : W → List Byte), TakesAll env → FillReader env unread →
    ∀ (req : FormRequest) (epilogue stale : List Byte) (w : W), MultipartRequest req boundary →
      unread w = multipartBody boundary epilogue parts →
      ∃ s' : FormState W,
        Machine.Ends (formStep env req stale) (.start w) ((parts.length : Int), s') ∧
        PartsDelivered parts (calls s'.events)

/-- Texts that are equal but for their case compare equal up to the end of the second. -/
theorem mgStrncasecmp_append (u v x : List Byte) (h : u.map tolower = v.map tolower) :
    mgStrncasecmp (u ++ x) v v.length = 0 := by
  induction v generalizing u with
  | nil => rfl
  | cons b v ih =>
    cases u with
    | nil => cases h
    | cons a u =>
      rw [List.map_cons, List.map_cons, List.cons.injEq] at h
      have hdiff : ((tolower a).toNat : Int) - (tolower b).toNat = 0 := (tolower_toNat_inj a b).mpr h.1
      rw [List.cons_append, List.length_cons, mgStrncasecmp]
      simp only [deref_cons, List.tail_cons, hdiff, ne_eq, not_true_eq_false, ih u h.2, ite_self]

theorem multipart_type (boundary : List Byte) :
    mgStrncasecmp (ascii "multipart/form-data; boundary=" ++ boundary)
      (ascii "MULTIPART/FORM-DATA;") 20 = 0 := by
  have hsplit : ascii "multipart/form-data; boundary=" =
      ascii "multipart/form-data;" ++ ascii " boundary=" := by decide
  have hlen : (ascii "MULTIPART/FORM-DATA;").length = 20 := by decide
  rw [hsplit, List.append_assoc, ← hlen]
  exact mgStrncasecmp_append _ _ _ (by decide)

theorem boundaryValue_plain (boundary : List Byte) :
    boundaryValue (ascii "multipart/form-data; boundary=" ++ boundary) = some boundary := by
  have hrest : ((ascii "multipart/form-data; boundary=" ++ boundary).drop 20).dropWhile (· == SP) =
      ascii "boundary=" ++ boundary := rfl
  have hkey := mgStrncasecmp_append (ascii "boundary=") (ascii "BOUNDARY=") boundary (by decide)
  unfold boundaryValue
  rw [hrest, if_neg (fun h => h hkey)]
  rfl

theorem multipartStart_takes {W : Type} (env : FormHandler W) (htakes : TakesAll env)
    (boundary : List Byte) (htoken : ∀ c ∈ boundary, tokenByte c = true)
    (hlen : 4 ≤ boundary.length ∧ boundary.length ≤ 70) (w : W) :
    ∃ w', multipartStart env (ascii "multipart/form-data; boundary=" ++ boundary) w =
        .inl (.parts boundary (.part true (formInit w'))) ∧
      w' = (env.mgMalloc (boundary.length + 1) w).2 := by
  have hquotes : trimQuotes boundary = some boundary := by
    cases boundary with
    | nil => rfl
    | cons c t =>
      have hc := (tokenByte_facts c (htoken c (by simp))).2.2
      rw [trimQuotes, if_neg hc]
  refine ⟨(env.mgMalloc (boundary.length + 1) w).2, ?_, rfl⟩
  unfold multipartStart
  rw [boundaryValue_plain]
  dsimp only
  rw [htakes.malloc, hquotes]
  dsimp only
  rw [if_neg (by decide), if_neg (by omega)]

/-- Every multipart body whose parts keep to the limits round-trips. -/
theorem multipartBody_roundTrip (boundary : List Byte) (htoken : ∀ c ∈ boundary, tokenByte c = true)
    (hlen : 4 ≤ boundary.length ∧ boundary.length ≤ 70) (parts : List FormPart)
    (hparts : ∀ p ∈ parts, WellFormedPart boundary p ∧ PartLimits p) :
    MultipartRoundTrip boundary parts := by
  intro W env unread htakes hfill req epilogue stale w hreq hunread
  have hnul : NUL ∉ boundary := fun h => (tokenByte_facts NUL (htoken NUL h)).1 rfl
  have hcr : CR ∉ boundary := fun h => (tokenByte_facts CR (htoken CR h)).2.1 rfl
  obtain ⟨w', hstart, hw'⟩ := multipartStart_takes env htakes boundary htoken hlen w
  have hurl : req.urlEncoded = false := by
    unfold FormRequest.urlEncoded
    rw [hreq.type]
    rfl
  have hmulti := multipart_type boundary
  have hfirst : formStep env req stale (.start w) =
      .inl (.parts boundary (.part true (formInit w'))) := by
    show formStart env req w = _
    unfold formStart
    rw [hreq.body, hurl, hreq.type, Bool.not_true, if_neg Bool.false_ne_true, if_neg Bool.false_ne_true]
    dsimp only
    rw [if_pos hmulti, hstart]
  have hready : PartReady unread (formInit w') (multipartBody boundary epilogue parts) := by
    refine ⟨rfl, rfl, Nat.zero_le _, ?_⟩
    show unread w' = _
    rw [hw', hfill.malloc, hunread]
  obtain ⟨s', events, hends, hcalls, hdelivered⟩ := parts_deliver env boundary stale htakes hfill hnul
    hcr hlen.2 epilogue parts hparts true (formInit w') hready
  have hcalls' : calls s'.events = events := hcalls
  rw [← hcalls'] at hdelivered
  have hcount : ((formInit w').fieldCount + parts.length : Nat) = parts.length := Nat.zero_add _
  rw [hcount] at hends
  have hrun : Machine.Ends (formStep env req stale) (.start w) ((parts.length : Int), s') := by
    apply Machine.Ends.more _ _ _ hfirst
    exact Machine.Ends.lift (partsStep env boundary stale) (formStep env req stale) (.parts boundary)
      (fun _ => rfl) _ _ hends
  exact ⟨s', hrun, hdelivered⟩

/-! ### Parts with given names -/

theorem plainByte_value : ∀ c, plainByte c = true → valueByte c = true :=
  byte_all _ (by decide +kernel)

/-- A part with a `Content-Disposition` and some more header lines. -/
def namedPart (name : List Byte) (filename : Option (List Byte)) (more : Nat) (data : List Byte) :
    FormPart where
  name := name
  filename := filename
  headers := ⟨ascii "Content-Disposition", contentDisposition name filename⟩ ::
    List.replicate more ⟨ascii "A", ascii "b"⟩
  lines := (ascii "Content-Disposition:" ++ SP :: contentDisposition name filename) ::
    List.replicate more (ascii "A:b")
  data := data

theorem contentDisposition_valueByte (name : List Byte) (filename : Option (List Byte))
    (hname : ∀ c ∈ name, plainByte c = true) (hfile : ∀ f ∈ filename, ∀ c ∈ f, plainByte c = true) :
    ∀ c ∈ contentDisposition name filename, valueByte c = true := by
  have hquote : valueByte QUOTE = true := rfl
  have hfront : ∀ c ∈ ascii "form-data; name=", valueByte c = true := by decide
  have hmiddle : ∀ c ∈ ascii "; filename=", valueByte c = true := by decide
  intro c hc
  unfold contentDisposition at hc
  obtain h | h := List.mem_append.mp hc
  · exact hfront c h
  obtain rfl | h := List.mem_cons.mp h
  · exact hquote
  obtain h | h := List.mem_append.mp h
  · exact plainByte_value c (hname c h)
  obtain rfl | h := List.mem_cons.mp h
  · exact hquote
  cases filename with
  | none => cases h
  | some f =>
    obtain h | h := List.mem_append.mp h
    · exact hmiddle c h
    obtain rfl | h := List.mem_cons.mp h
    · exact hquote
    obtain h | h := List.mem_append.mp h
    · exact plainByte_value c (hfile f rfl c h)
    · rw [List.mem_singleton.mp h]
      exact hquote

theorem namedPart_wellFormed (boundary name : List Byte) (filename : Option (List Byte)) (more : Nat)
    (data : List Byte) (hname : ∀ c ∈ name, plainByte c = true)
    (hfile : ∀ f ∈ filename, PlainFile f ∧ ∀ c ∈ f, plainByte c = true)
    (hblock : (namedPart name filename more data).block.length ≤ 4096)
    (hdata : ¬ delimiter boundary <:+: CR :: LF :: data) :
    WellFormedPart boundary (namedPart name filename more data) where
  name := hname
  filename := hfile
  block := hblock
  data := hdata
  lines := by
    have hne : ascii "Content-Disposition" ≠ [] := by decide
    have hbytes : ∀ a ∈ ascii "Content-Disposition", nameByte a = true := by decide
    apply List.Forall₂.cons
    · refine ⟨hne, hbytes, ?_, ?_, 0, [SP], by decide, rfl⟩
      · exact contentDisposition_valueByte name filename hname (fun f hf => (hfile f hf).2)
      · intro c hc
        obtain rfl : 102 = c := Option.some.inj hc
        rfl
    · have hline : HeaderLine ⟨ascii "A", ascii "b"⟩ (ascii "A:b") :=
        ⟨by decide, by decide, by decide, by decide, 0, [], by decide, rfl⟩
      have hmore : ∀ n, List.Forall₂ HeaderLine (List.replicate n ⟨ascii "A", ascii "b"⟩)
          (List.replicate n (ascii "A:b")) := by
        intro n
        induction n with
        | zero => exact List.Forall₂.nil
        | succ n ih => exact List.Forall₂.cons hline ih
      exact hmore more
  disposition := by
    have hsame : mgStrcasecmp (ascii "Content-Disposition") (ascii "Content-Disposition") = 0 := by decide
    unfold getHeader namedPart
    rw [List.find?_cons_of_pos (by simp [hsame])]
    rfl

/-- A body with one part whose data ends in the start of a delimiter. -/
theorem multipartBody_roundTrip_one :
    ∃ s' : FormState Feed, Machine.Ends (formStep getHandler ⟨200, false, ascii "POST", none,
        some (ascii "multipart/form-data; boundary=bbbb")⟩ [])
        (.start ⟨multipartBody (ascii "bbbb") [] [namedPart (ascii "a") (some (ascii "f.txt")) 1
          [0, CR, LF, 45, 45]], []⟩) (1, s') ∧
      PartsDelivered [namedPart (ascii "a") (some (ascii "f.txt")) 1 [0, CR, LF, 45, 45]]
        (calls s'.events) := by
  have hpart : ∀ p ∈ [namedPart (ascii "a") (some (ascii "f.txt")) 1 [0, CR, LF, 45, 45]],
      WellFormedPart (ascii "bbbb") p ∧ PartLimits p := by
    intro p hp
    rw [List.mem_singleton.mp hp]
    refine ⟨?_, by decide, by decide, by decide⟩
    apply namedPart_wellFormed
    · decide
    · intro f hf
      obtain rfl := Option.some.inj hf
      exact ⟨⟨by decide, by decide, by decide⟩, by decide⟩
    · decide +kernel
    · intro h
      exact absurd h.length_le (by decide)
  exact multipartBody_roundTrip (ascii "bbbb") (by decide) (by decide) _ hpart getHandler Feed.body
    getHandler_takes getHandler_fills _ [] [] _ ⟨rfl, rfl⟩ rfl

/-- How a body with one part goes through `mg_handle_form_request`: its answer and the callbacks. -/
def partRun (boundary contentType : List Byte) (p : FormPart) : Option (Int × List FormEvent) :=
  match Machine.runFor (formStep getHandler ⟨1, false, ascii "POST", none, some contentType⟩ []) 4
      (.start ⟨multipartBody boundary [] [p], []⟩) with
  | .inl _ => none
  | .inr r => some (r.1, calls r.2.events)

theorem not_roundTrip (boundary : List Byte) (p : FormPart) (answer : Int)
    (h : partRun boundary (ascii "multipart/form-data; boundary=" ++ boundary) p = some (answer, [])) :
    ¬ MultipartRoundTrip boundary [p] := by
  intro hall
  obtain ⟨s', hends, hdelivered⟩ := hall getHandler Feed.body getHandler_takes getHandler_fills
    ⟨1, false, ascii "POST", none, some (ascii "multipart/form-data; boundary=" ++ boundary)⟩ [] []
    ⟨multipartBody boundary [] [p], []⟩ ⟨rfl, rfl⟩ rfl
  unfold partRun at h
  cases hrun : Machine.runFor (formStep getHandler ⟨1, false, ascii "POST", none,
      some (ascii "multipart/form-data; boundary=" ++ boundary)⟩ []) 4
      (.start ⟨multipartBody boundary [] [p], []⟩) with
  | inl q => simp [hrun] at h
  | inr r =>
    have hr := Machine.Ends.runFor _ _ _ r 4 hends hrun
    simp only [hrun, Option.some.injEq, Prod.mk.injEq] at h
    rw [← hr] at h
    have hcalls : calls s'.events = [] := h.2
    rw [hcalls] at hdelivered
    cases hdelivered

/-- The limits are needed: a head of 65 header lines ends the request, and a field with a name or a file
name of 1024 bytes is not announced. -/
theorem multipartBody_roundTrip_limits :
    (WellFormedPart (ascii "bbbb") (namedPart (ascii "a") none 64 []) ∧
      ¬ MultipartRoundTrip (ascii "bbbb") [namedPart (ascii "a") none 64 []]) ∧
    (WellFormedPart (ascii "bbbb") (namedPart (List.replicate 1024 97) none 0 []) ∧
      ¬ MultipartRoundTrip (ascii "bbbb") [namedPart (List.replicate 1024 97) none 0 []]) ∧
    (WellFormedPart (ascii "bbbb") (namedPart (ascii "a") (some (List.replicate 1024 97)) 0 []) ∧
      ¬ MultipartRoundTrip (ascii "bbbb")
        [namedPart (ascii "a") (some (List.replicate 1024 97)) 0 []]) := by
  have hplain : ∀ c ∈ List.replicate 1024 (97 : Byte), plainByte c = true := by
    intro c hc
    rw [List.eq_of_mem_replicate hc]
    rfl
  have hfile : PlainFile (List.replicate 1024 97) := by
    refine ⟨?_, ?_, ?_⟩
    · intro h
      exact absurd (List.eq_of_mem_replicate h) (by decide)
    · intro h
      exact absurd (List.eq_of_mem_replicate h) (by decide)
    · rw [List.getLast?_replicate]
      decide
  have hdata : ¬ delimiter (ascii "bbbb") <:+: [CR, LF] := by
    intro h
    exact absurd h.length_le (by decide)
  have hnone : ∀ f ∈ (none : Option (List Byte)), PlainFile f ∧ ∀ c ∈ f, plainByte c = true := by
    intro f hf
    cases hf
  refine ⟨⟨?_, ?_⟩, ⟨?_, ?_⟩, ?_, ?_⟩
  · exact namedPart_wellFormed _ _ none 64 [] (by decide) hnone (by decide +kernel) hdata
  · exact not_roundTrip _ _ (-1) (by decide +kernel)
  · exact namedPart_wellFormed _ _ none 0 [] hplain hnone (by decide +kernel) hdata
  · exact not_roundTrip _ _ 1 (by decide +kernel)
  · refine namedPart_wellFormed _ _ _ 0 [] (by decide) ?_ (by decide +kernel) hdata
    intro f hf
    obtain rfl := Option.some.inj hf
    exact ⟨hfile, hplain⟩
  · exact not_roundTrip _ _ 1 (by decide +kernel)

end CivetWeb
