import CivetWeb.Form.FieldsStall
import CivetWeb.Form.FormReaders
import CivetWeb.Form.Multipart

namespace CivetWeb

/-- What `mg_handle_form_request` reads of a connection. -/
structure FormRequest where
  contentLength : Int
  isChunked : Bool
  requestMethod : List Byte
  queryString : Option (List Byte)
  contentType : Option (List Byte)

/-- The body is announced by a length or by chunks. -/
def FormRequest.hasBodyData (req : FormRequest) : Bool :=
  decide (0 < req.contentLength) || req.isChunked

/-- A body of keys and values, as it is also where no type is given. -/
def FormRequest.urlEncoded (req : FormRequest) : Bool :=
  match req.contentType with
  | none => true
  | some contentType =>
    mgStrncasecmp contentType (ascii "APPLICATION/X-WWW-FORM-URLENCODED") 33 == 0 ||
      mgStrncasecmp contentType (ascii "APPLICATION/WWW-FORM-URLENCODED") 31 == 0

/-- The value of the `BOUNDARY` of a content type, with its quotes. -/
def boundaryValue (contentType : List Byte) : Option (List Byte) :=
  let rest := (contentType.drop 20).dropWhile (· == SP)
  if mgStrncasecmp rest (ascii "BOUNDARY=") 9 ≠ 0 then none else some (rest.drop 9)

/-- A boundary without the quotes it may stand in. -/
def trimQuotes : List Byte → Option (List Byte)
  | [] => some []
  | c :: boundary =>
    if c = QUOTE then (strchrAt boundary QUOTE).map (boundary.take ·) else some (c :: boundary)

/-- The places `mg_handle_form_request` goes through. -/
inductive FormAt (W : Type) where
  | start (w : W)
  | query (p : List Byte × FormState W)
  | fields (p : FieldsAt W)
  | parts (boundary : List Byte) (p : PartsAt W)

section
variable {W : Type} (env : FormHandler W) (req : FormRequest) (stale : List Byte)

/-- Where the parts of a multipart body begin to be read. -/
def multipartStart (contentType : List Byte) (w : W) : FormAt W ⊕ FormResult W :=
  match boundaryValue contentType with
  | none => .inr (-1, formInit w)
  | some value =>
    let (allocated, w) := env.mgMalloc (value.length + 1) w
    if !allocated then .inr (-1, formInit w)
    else
      match trimQuotes value with
      | none => .inr (-1, formInit w)
      | some boundary =>
        if 70 < boundary.length ∨ boundary.length < 4 then .inr (-1, formInit w)
        else .inl (.parts boundary (.part true (formInit w)))

/-- Which of the readers a request goes to. -/
def formStart (w : W) : FormAt W ⊕ FormResult W :=
  if !req.hasBodyData then
    if req.requestMethod ≠ ascii "GET" then .inr (-1, formInit w)
    else
      match req.queryString with
      | none => .inr (-1, formInit w)
      | some data => .inl (.query (data, formInit w))
  else if req.urlEncoded then .inl (.fields (.field (formInit w)))
  else
    match req.contentType with
    | none => .inr (-1, formInit w)
    | some contentType =>
      if mgStrncasecmp contentType (ascii "MULTIPART/FORM-DATA;") 20 = 0 then
        multipartStart env contentType w
      else .inr (-1, formInit w)

/-- `mg_handle_form_request`; `stale` is what its buffer held before. -/
def formStep : FormAt W → FormAt W ⊕ FormResult W
  | .start w => formStart env req w
  | .query p => (queryStep env p).map .query id
  | .fields p => (fieldsStep env p).map .fields id
  | .parts boundary p => (partsStep env boundary stale p).map (.parts boundary) id

theorem formStep_query (w : W) (data : List Byte) (r : FormResult W)
    (hbody : req.hasBodyData = false) (hmethod : req.requestMethod = ascii "GET")
    (hquery : req.queryString = some data)
    (h : Machine.Ends (queryStep env) (data, formInit w) r) :
    Machine.Ends (formStep env req stale) (.start w) r := by
  have hstart : formStep env req stale (.start w) = .inl (.query (data, formInit w)) := by
    simp only [formStep, formStart, hbody, hmethod, hquery, Bool.not_false, if_true, ne_eq,
      not_true_eq_false, if_false]
  apply Machine.Ends.more _ _ r hstart
  exact Machine.Ends.lift (queryStep env) (formStep env req stale) .query (fun _ => rfl) _ r h

theorem formStep_fields (w : W) (r : FormResult W) (hbody : req.hasBodyData = true)
    (htype : req.urlEncoded = true)
    (h : Machine.Ends (fieldsStep env) (.field (formInit w)) r) :
    Machine.Ends (formStep env req stale) (.start w) r := by
  have hstart : formStep env req stale (.start w) = .inl (.fields (.field (formInit w))) := by
    simp only [formStep, formStart, hbody, htype, Bool.not_true, Bool.false_eq_true, if_false, if_true]
  apply Machine.Ends.more _ _ r hstart
  exact Machine.Ends.lift (fieldsStep env) (formStep env req stale) .fields (fun _ => rfl) _ r h

/-! ### The readers of url encoded data -/

/-- The four readers agree as long as their lengths fit an `int`. The fields of a split form, the variables that
`mg_get_var2` finds, the calls of `field_get` for a query string, and those for a body however its blocks are cut,
give the text that each value stands for; all but the last do so exactly under a bound on the lengths that are
narrowed. `field_count` is an `int` too. -/
theorem formReaders_agree (pairs : List FormPair) (hpairs : ∀ p ∈ pairs, WellFormedPair p) :
    (∀ p ∈ pairs, p.2.length < 2 ^ 31 → ∀ dstLen : Nat, (formDecode p.2).length < dstLen → dstLen < 2 ^ 31 →
      mgUrlDecodeInt p.2 p.2.length dstLen true = some (formDecode p.2)) ∧
    (∀ slots, pairs.length ≤ slots → 0 < slots →
      (mgSplitFormUrlencoded (some (joinPairs pairs)) true slots =
          ((pairs.length : Int), pairs.map (fun p => (p.1, some (formDecode p.2)))) ↔
        slots < 2 ^ 31 ∧ ∀ p ∈ pairs, p.1.length < 2 ^ 31 ∧ p.2.length < 2 ^ 31)) ∧
    (∀ key, (∀ c ∈ key, c ≠ NUL ∧ c ≠ EQUALS) → ∀ dstLen, 0 < dstLen →
      (∀ p ∈ pairs, (formDecode p.2).length < dstLen) → ∀ n,
      ((mgGetVar2 (some (joinPairs pairs)) (some key) dstLen n =
          match (pairsOf key pairs)[n]? with
          | some p => (((formDecode p.2).length : Int), formDecode p.2)
          | none => (-1, [])) ↔
        ∀ p ∈ (pairsOf key pairs)[n]?, p.2.length < 2 ^ 31 ∧
          (formDecode p.2).length ≤ urlDecodeRoom (sizeToInt dstLen))) ∧
    ((∀ p ∈ pairs, p.1.length < 1024) →
      ∀ {W : Type} (env : FormHandler W) (req : FormRequest) (stale : List Byte) (w : W),
      TakesAll env →
      (req.hasBodyData = false → req.requestMethod = ascii "GET" →
        req.queryString = some (joinPairs pairs) →
        ∃ (count : Int) (s' : FormState W),
          Machine.Ends (formStep env req stale) (.start w) (count, s') ∧
          (pairs.length < 2 ^ 31 → count = pairs.length) ∧
          (s'.events = pairs.flatMap pairCalls ↔ ∀ p ∈ pairs, p.2.length < 2 ^ 31)) ∧
      (∀ unread : W → List Byte, FillReader env unread → req.hasBodyData = true →
        req.urlEncoded = true → unread w = joinPairs pairs →
        ∃ (count : Int) (s' : FormState W),
          Machine.Ends (formStep env req stale) (.start w) (count, s') ∧
          (pairs.length < 2 ^ 31 → count = pairs.length) ∧
          Delivered pairs (calls s'.events))) := by
  refine ⟨?_, ?_, ?_, ?_⟩
  · intro p hp hint dstLen hlen hroom
    rw [mgUrlDecodeInt, urlDecodeRoom_natCast (by omega), Int.toNat_natCast, List.take_length]
    exact mgUrlDecode_form p.2 dstLen (hpairs p hp).value hlen
  · intro slots hslots hpos
    exact mgSplitFormUrlencoded_join pairs slots hpairs hslots hpos
  · intro key hkey dstLen hpos _ n
    unfold mgGetVar2
    rw [if_neg (Nat.ne_of_gt hpos)]
    dsimp only
    rw [getVarLoop_join pairs hpairs key hkey dstLen n none (Or.inl rfl)]
    cases hfound : (pairsOf key pairs)[n]? with
    | none => exact iff_of_true rfl fun p hp => absurd hp (Option.not_mem_none p)
    | some p =>
      have hp := hpairs p (List.mem_of_mem_filter (List.mem_of_getElem? hfound))
      dsimp only
      rw [decodeVar_iff dstLen p.2 hp.value]
      simp
  · intro hkeys W env req stale w htakes
    constructor
    · intro hbody hmethod hquery
      obtain ⟨s', events, hends, hevents, hvalues⟩ := queryStep_join env htakes pairs hpairs hkeys (formInit w)
      refine ⟨pairs.length, s', ?_, fun _ => rfl, ?_⟩
      · apply formStep_query env req stale w _ _ hbody hmethod hquery
        simpa [formInit] using hends
      · rw [hevents]
        exact hvalues
    · intro unread hfill hbody htype hunread
      have hfits : (FieldsAt.field (formInit w)).Fits := by
        refine ⟨rfl, Nat.zero_le _, ?_⟩
        intro f u hfu
        cases hfu
      obtain ⟨s', events, hends, hcalls, hdelivered⟩ := fields_deliver env htakes hfill pairs hpairs
        hkeys (formInit w) hfits rfl hunread
      have hcalls' : calls s'.events = events := hcalls
      refine ⟨pairs.length, s', ?_, fun _ => rfl, hcalls' ▸ hdelivered⟩
      apply formStep_fields env req stale w _ hbody htype
      simpa [formInit] using hends

end

/-- A client whose reads fill the buffer, and that takes the value of every field. -/
def getHandler : FormHandler Feed :=
  { feedHandler with fieldFound := fun _ _ w => ((MG_FORM_FIELD_STORAGE_GET, []), w) }

theorem getHandler_takes : TakesAll getHandler where
  hasGet := rfl
  found := fun _ _ _ => rfl
  malloc := fun _ _ => rfl
  get := by
    intro key value n w
    show MG_FORM_FIELD_HANDLE_GET ≠ MG_FORM_FIELD_HANDLE_ABORT ∧
      MG_FORM_FIELD_HANDLE_GET ≠ MG_FORM_FIELD_HANDLE_NEXT
    decide

theorem getHandler_fills : FillReader getHandler Feed.body where
  read := feedHandler_fills.read
  more := feedHandler_fills.more
  found := fun _ _ _ => rfl
  get := feedHandler_fills.get
  store := feedHandler_fills.store
  malloc := feedHandler_fills.malloc
  fopen := feedHandler_fills.fopen
  fwrite := feedHandler_fills.fwrite
  fclose := feedHandler_fills.fclose
  remove := feedHandler_fills.remove
  fill := feedHandler_fills.fill

theorem formValue_two : FormValue (ascii "1%20") := by
  apply FormValue.byte 49 _ (by decide) (by decide) (by decide)
  exact FormValue.escape 50 48 [] (by decide) (by decide) (by decide) FormValue.nil

/-- Two values of one key, in a query string and in a body. -/
theorem formReaders_agree_two :
    mgSplitFormUrlencoded (some (ascii "a=1%20&A=1%20")) true 2 =
      (2, [(ascii "a", some (ascii "1 ")), (ascii "A", some (ascii "1 "))]) ∧
    mgGetVar2 (some (ascii "a=1%20&A=1%20")) (some (ascii "a")) 8 1 = (2, ascii "1 ") ∧
    (∃ s' : FormState Feed, Machine.Ends (formStep getHandler ⟨-1, false, ascii "GET",
        some (ascii "a=1%20&A=1%20"), none⟩ []) (.start ⟨[], []⟩) (2, s') ∧
      s'.events = [.found (ascii "a") [], .get (ascii "a") (ascii "1 ") 2, .found (ascii "A") [],
        .get (ascii "A") (ascii "1 ") 2]) ∧
    (∃ s' : FormState Feed, Machine.Ends (formStep getHandler ⟨13, false, ascii "POST", none, none⟩ [])
        (.start ⟨ascii "a=1%20&A=1%20", []⟩) (2, s') ∧
      Delivered [(ascii "a", ascii "1%20"), (ascii "A", ascii "1%20")] (calls s'.events)) := by
  have hpairs : ∀ p ∈ [(ascii "a", ascii "1%20"), (ascii "A", ascii "1%20")], WellFormedPair p := by
    intro p hp
    simp only [List.mem_cons, List.not_mem_nil, or_false] at hp
    obtain rfl | rfl := hp
    · exact ⟨by decide, formValue_two⟩
    · exact ⟨by decide, formValue_two⟩
  obtain ⟨-, hsplit, hvar, hreaders⟩ := formReaders_agree _ hpairs
  refine ⟨(hsplit 2 (by decide) (by decide)).mpr (by decide), ?_, ?_, ?_⟩
  · exact (hvar (ascii "a") (by decide) 8 (by decide) (by decide) 1).mpr (by decide)
  · obtain ⟨count, s', hends, hcount, hevents⟩ := (hreaders (by decide) getHandler ⟨-1, false, ascii "GET",
      some (ascii "a=1%20&A=1%20"), none⟩ [] ⟨[], []⟩ getHandler_takes).1 rfl rfl rfl
    obtain rfl : count = 2 := hcount (by decide)
    exact ⟨s', hends, (hevents.mpr (by decide)).trans (by decide)⟩
  · obtain ⟨count, s', hends, hcount, hdelivered⟩ := (hreaders (by decide) getHandler
      ⟨13, false, ascii "POST", none, none⟩ [] ⟨ascii "a=1%20&A=1%20", []⟩ getHandler_takes).2 Feed.body
      getHandler_fills rfl rfl rfl
    obtain rfl : count = 2 := hcount (by decide)
    exact ⟨s', hends, hdelivered⟩

/-- For a buffer of 2 GB and a byte, `mg_get_var2` says of a value of one character that it is too long. -/
theorem formReaders_narrowed :
    WellFormedPair (ascii "a", ascii "b") ∧ (formDecode (ascii "b")).length < 2 ^ 31 + 1 ∧
      (pairsOf (ascii "a") [(ascii "a", ascii "b")])[0]? = some (ascii "a", ascii "b") ∧
      mgGetVar2 (some (joinPairs [(ascii "a", ascii "b")])) (some (ascii "a")) (2 ^ 31 + 1) 0 = (-2, []) ∧
      mgGetVar2 (some (joinPairs [(ascii "a", ascii "b")])) (some (ascii "a")) (2 ^ 31 + 1) 0 ≠
        (((formDecode (ascii "b")).length : Int), formDecode (ascii "b")) := by
  have hresult : mgGetVar2 (some (joinPairs [(ascii "a", ascii "b")])) (some (ascii "a")) (2 ^ 31 + 1) 0 =
      (-2, []) := by decide +kernel
  refine ⟨⟨by decide, ?_⟩, by decide, by decide, hresult, ?_⟩
  · exact FormValue.byte 98 [] (by decide) (by decide) (by decide) FormValue.nil
  · rw [hresult]
    decide

end CivetWeb
