import CivetWeb.Handlers.HandleRequest
import CivetWeb.Static.Dates

namespace CivetWeb

def isNotModified (conn : Conn) (filestat : FileStat) : Bool :=
  let ims := mgGetHeader conn (ascii "If-Modified-Since")
  match mgGetHeader conn (ascii "If-None-Match") with
  | some inm => mgStrcasecmp (constructEtag filestat) inm == 0
  | none =>
    match ims with
    | some ims => filestat.lastModified ≤ parseDateString ims
    | none => false

/-- The calls of `handle_not_modified_static_file_request`; `siteHeaders` are those of
`send_static_cache_header` and `send_additional_header`. -/
def notModifiedHead (stat : FileStat) (siteHeaders : List ResponseCall) : List ResponseCall :=
  .start 304 :: siteHeaders ++ [headerCall "Last-Modified" (gmtTimeString stat.lastModified),
    headerCall "Etag" (constructEtag stat), .send]

def handleNotModifiedStaticFileRequest (conn : ResponseConn) (stat : FileStat)
    (siteHeaders : List ResponseCall) : ResponseConn :=
  responseRun gmtTimeString conn (notModifiedHead stat siteHeaders)

/-- A request with the `Last-Modified` text that was sent for a file; if it names an `Etag`, then the one that
was sent too. -/
structure Revalidates (conn : Conn) (sent : FileStat) : Prop where
  since : mgGetHeader conn (ascii "If-Modified-Since") = some (gmtTimeString sent.lastModified)
  etag : ∀ inm ∈ mgGetHeader conn (ascii "If-None-Match"), inm = constructEtag sent

theorem mgStrcasecmp_self (s : List Byte) : mgStrcasecmp s s = 0 := by
  induction s with
  | nil => rfl
  | cons a s ih =>
    rw [mgStrcasecmp]
    simp only [sub_self, if_true, ih]

theorem isNotModified_unchanged (conn : Conn) (stat : FileStat) (ht : stat.lastModified < 253402300800)
    (h : Revalidates conn stat) : isNotModified conn stat = true := by
  have hsince := h.since
  have hetag := h.etag
  unfold isNotModified
  cases hinm : mgGetHeader conn (ascii "If-None-Match") with
  | none =>
    rw [hsince]
    dsimp only
    rw [parseDateString_gmtTimeString _ ht]
    exact decide_eq_true le_rfl
  | some inm =>
    rw [hetag inm hinm]
    dsimp only
    rw [mgStrcasecmp_self]
    rfl

theorem putOrDeleteAction_ne (method : List Byte) : putOrDeleteAction method ≠ .handleStaticFile := by
  unfold putOrDeleteAction
  repeat' (split; exact nofun)
  exact nofun

theorem else_of_ne {α : Type*} {p : Prop} [Decidable p] {x y r : α} (h : (if p then x else y) = r) (hx : x ≠ r) :
    ¬ p ∧ y = r :=
  (ite_eq_iff.mp h).resolve_left (fun hp => hx hp.2)

/-- A request that the file would be sent for ends with the answer that it is not modified. -/
theorem fileAction_notModified (build : Build) (input : RequestInput) (l : RequestLocals)
    (h : fileAction build { input with isNotModified := false } l = .handleStaticFile) :
    fileAction build { input with isNotModified := true } l = .notModified := by
  unfold fileAction at h ⊢
  dsimp only at h ⊢
  obtain ⟨h1, h⟩ := else_of_ne h (by split_ifs <;> exact nofun)
  obtain ⟨h2, h⟩ := else_of_ne h nofun
  obtain ⟨h3, h⟩ := else_of_ne h (by split_ifs <;> exact nofun)
  obtain ⟨h4, h⟩ := else_of_ne h (by
    split_ifs
    · exact nofun
    · exact putOrDeleteAction_ne _)
  obtain ⟨h5, h⟩ := else_of_ne h nofun
  obtain ⟨h6, h⟩ := else_of_ne h nofun
  obtain ⟨h7, h⟩ := else_of_ne h nofun
  obtain ⟨h8, h⟩ := else_of_ne h nofun
  obtain ⟨h9, h⟩ := else_of_ne h nofun
  obtain ⟨h10, h⟩ := else_of_ne h (by split_ifs <;> exact nofun)
  obtain ⟨h11, h⟩ := else_of_ne h (by split_ifs <;> exact nofun)
  rw [if_neg h1, if_neg h2, if_neg h3, if_neg h4, if_neg h5, if_neg h6, if_neg h7, if_neg h8, if_neg h9,
    if_neg h10, if_neg h11, if_pos rfl]
/-- The answer is a head with the status 304. -/
theorem handleNotModified_sends (conn : ResponseConn) (stat : FileStat) (siteHeaders : List ResponseCall)
    (hserver : conn.isHttpRequest = true) (hfresh : conn.requestState = 0)
    (hsite : ∀ call ∈ siteHeaders, call.closes = false)
    (hnet : TakesWrites (70 * (notModifiedHead stat siteHeaders).length) conn.out)
    (hfit : LinesFit gmtTimeString conn.toConn (notModifiedHead stat siteHeaders)) :
    ∃ t, (handleNotModifiedStaticFileRequest conn stat siteHeaders).out.sent = conn.out.sent ++
      responseHead conn.toConn 304 (acceptedHeaders (siteHeaders ++
        [headerCall "Last-Modified" (gmtTimeString stat.lastModified), headerCall "Etag" (constructEtag stat)]))
        (gmtTimeString t) := by
  obtain ⟨adds, hadds⟩ : ∃ adds, adds = siteHeaders ++
    [headerCall "Last-Modified" (gmtTimeString stat.lastModified), headerCall "Etag" (constructEtag stat)] :=
    ⟨_, rfl⟩
  have hcalls : notModifiedHead stat siteHeaders = (.start 304 :: adds) ++ ResponseCall.send :: [] := by
    rw [notModifiedHead, hadds]
    simp
  have hcloses : ∀ call ∈ adds, call.closes = false := by
    intro call hmem
    rw [hadds, List.mem_append] at hmem
    rcases hmem with hmem | hmem
    · exact hsite call hmem
    · simp only [List.mem_cons, List.not_mem_nil, or_false] at hmem
      rcases hmem with rfl | rfl <;> rfl
  have hopened : Opened (.start 304 :: adds) 304 adds := ⟨[], by simp, rfl, hcloses, rfl⟩
  obtain ⟨state, out, t, hrun, -, -, hsent⟩ := headSent_run gmtTimeString conn (notModifiedHead stat siteHeaders)
    304 adds [] hserver hfresh hnet hfit ⟨_, hopened, hcalls⟩
  refine ⟨t, ?_⟩
  rw [handleNotModifiedStaticFileRequest, hrun, ← hadds]
  dsimp only
  rw [hsent]
  simp [writtenData]

/-- The dates of HTTP: from 1970 to 9999 a date that the server writes is read back as the same time, in the
order of the times; a request with the date that was sent for a file, which is still the same, is answered
with 304; off the calendar `timegm` returns -1. -/
theorem httpDates_roundTrip :
    (∀ t < 253402300800, parseDateString (gmtTimeString t) = t) ∧
    (∀ s t, s < t → t < 253402300800 →
      parseDateString (gmtTimeString s) < parseDateString (gmtTimeString t)) ∧
    (∀ (conn : Conn) (stat : FileStat), stat.lastModified < 253402300800 → Revalidates conn stat →
      isNotModified conn stat = true ∧
      ∀ (build : Build) (input : RequestInput) (l : RequestLocals),
        fileAction build { input with isNotModified := false } l = .handleStaticFile →
        fileAction build { input with isNotModified := isNotModified conn stat } l = .notModified) ∧
    (∀ (conn : ResponseConn) (stat : FileStat) (siteHeaders : List ResponseCall), conn.isHttpRequest = true →
      conn.requestState = 0 → (∀ call ∈ siteHeaders, call.closes = false) →
      TakesWrites (70 * (notModifiedHead stat siteHeaders).length) conn.out →
      LinesFit gmtTimeString conn.toConn (notModifiedHead stat siteHeaders) →
      ∃ t, (handleNotModifiedStaticFileRequest conn stat siteHeaders).out.sent = conn.out.sent ++
        responseHead conn.toConn 304 (acceptedHeaders (siteHeaders ++
          [headerCall "Last-Modified" (gmtTimeString stat.lastModified), headerCall "Etag" (constructEtag stat)]))
          (gmtTimeString t)) ∧
    ∀ tm, timegm tm = -1 ↔ ¬ OnCalendar tm := by
  refine ⟨parseDateString_gmtTimeString, ?_, ?_, handleNotModified_sends, timegm_eq_neg_iff⟩
  · intro s t hst ht
    rw [parseDateString_gmtTimeString s (hst.trans ht), parseDateString_gmtTimeString t ht]
    exact Int.ofNat_lt.mpr hst
  · intro conn stat ht hsent
    have hmod := isNotModified_unchanged conn stat ht hsent
    refine ⟨hmod, fun build input l hfile => ?_⟩
    rw [hmod]
    exact fileAction_notModified build input l hfile

theorem dateLine_fits (t : Nat) : (headerText (ascii "Date") (gmtTimeString t)).length ≤ INT_MAX := by
  have htext := gmtTimeString_length t
  have hcut : (cstr (gmtTimeString t)).length ≤ (gmtTimeString t).length :=
    (List.takeWhile_sublist _).length_le
  have hfixed : (ascii "Date").length = 4 ∧ CRLF.length = 2 ∧ INT_MAX = 2 ^ 31 - 1 := by decide
  simp only [headerText, List.length_append, List.length_cons]
  omega

/-- A request on `requestConn` for a file that was last changed on the 29th of February 1972. -/
def revalidatingConn : ResponseConn :=
  { requestConn with
    requestInfo := { requestConn.requestInfo with
      httpHeaders := [⟨ascii "If-Modified-Since", ascii "Tue, 29 Feb 1972 12:34:56 GMT"⟩] } }

theorem httpDates_roundTrip_leapDay :
    parseDateString (ascii "Tue, 29 Feb 1972 12:34:56 GMT") = 68214896 ∧
    isNotModified revalidatingConn.toConn ⟨5, 68214896, false, false⟩ = true ∧
    ∃ t, (handleNotModifiedStaticFileRequest revalidatingConn ⟨5, 68214896, false, false⟩ []).out.sent =
      responseHead revalidatingConn.toConn 304
        [⟨ascii "Last-Modified", ascii "Tue, 29 Feb 1972 12:34:56 GMT"⟩, ⟨ascii "Etag", ascii "\"410e070.5\""⟩]
        (gmtTimeString t) := by
  obtain ⟨hback, -, hunchanged, hsent, -⟩ := httpDates_roundTrip
  have hdate : gmtTimeString 68214896 = ascii "Tue, 29 Feb 1972 12:34:56 GMT" := by decide +kernel
  have hsince : Revalidates revalidatingConn.toConn ⟨5, 68214896, false, false⟩ :=
    ⟨by rw [hdate]; decide, by decide⟩
  have hheaders : acceptedHeaders ([] ++ [headerCall "Last-Modified" (gmtTimeString 68214896),
      headerCall "Etag" (constructEtag ⟨5, 68214896, false, false⟩)]) =
      [⟨ascii "Last-Modified", ascii "Tue, 29 Feb 1972 12:34:56 GMT"⟩, ⟨ascii "Etag", ascii "\"410e070.5\""⟩] := by
    rw [hdate]
    decide +kernel
  have hfit : LinesFit gmtTimeString revalidatingConn.toConn
      (notModifiedHead ⟨5, 68214896, false, false⟩ []) := by
    refine ⟨fun status hstatus => statusLine_fits _ status (by decide) hstatus, ?_, dateLine_fits⟩
    rw [notModifiedHead, hdate]
    decide +kernel
  refine ⟨?_, (hunchanged _ _ (by decide) hsince).1, ?_⟩
  · rw [← hdate]
    exact hback 68214896 (by decide)
  · obtain ⟨t, ht⟩ := hsent revalidatingConn ⟨5, 68214896, false, false⟩ [] rfl rfl (by simp)
      (takesWrites_accepting _ 350 _ (by decide) rfl rfl) hfit
    rw [hheaders] at ht
    exact ⟨t, ht⟩

end CivetWeb
