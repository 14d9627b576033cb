import CodeConverter.Proofs.Json.Roundtrip
import CodeConverter.Proofs.Service.History
import CodeConverter.Proofs.Service.Server
import CodeConverter.Service.App

/-!
# What the service remembers

Only a conversion that is answered with status 200 changes the history, by one record with the next
number. The record reports the request and its answer, and is shown and listed as it was made after
any further requests. This holds with every lawful validation and behind every lawful server.
-/

namespace CodeConverter.Service

open Text ConvertRequest
open List hiding dropPrefix?

variable {v : Validation} {settings : Except SettingsFault Settings} {time : Text} {server : Server}
  {h : History}

/-! ## Values that pass their checks -/

/-- The object of an explanation passes its own check. -/
theorem Validation.Lawful.check_explanation (hv : v.Lawful) (e : Explanation) :
    Explanation.check v (e.toJson .camel) = .ok e := by
  have hstep : ∀ s : ExplanationStep, ExplanationStep.check v (s.toJson .camel) = .ok s := by
    intro s
    unfold ExplanationStep.check ExplanationStep.toJson
    rw [hv.object]
    simp only [hv.field_eq_ok_iff, Checked.map_eq_ok_iff, hv.requiredText_eq_ok_iff]
    exact ⟨_, _, ⟨_, _, ⟨_, _, ⟨_, rfl, rfl⟩, rfl, rfl⟩, rfl, rfl⟩, rfl, rfl⟩
  have hsteps : v.list (ExplanationStep.check v)
      (.array (e.steps.map (ExplanationStep.toJson .camel))) = .ok e.steps :=
    hv.list (forall₂_map_left_iff.mpr (forall₂_same.mpr fun s _ => hstep s))
  unfold Explanation.check Explanation.toJson
  rw [hv.object]
  simp only [hv.field_eq_ok_iff, Checked.map_eq_ok_iff, hv.requiredText_eq_ok_iff,
    hv.required_eq_ok_iff]
  exact ⟨_, _, ⟨_, _, ⟨_, ⟨_, rfl, hsteps⟩, rfl⟩, rfl, rfl⟩, rfl, rfl⟩

/-- An answer passes its own check. -/
theorem Validation.Lawful.check_response (hv : v.Lawful) (id : Int) (code : Text)
    (e : Explanation) : ConvertResponse.check v (.object [(Field.id.snake, .int id),
      (Field.targetCode.snake, .string code), (Field.explanation.snake, e.toJson .camel)]) =
        .ok ⟨id, code, e⟩ := by
  unfold ConvertResponse.check
  rw [hv.object]
  simp only [hv.field_eq_ok_iff, Checked.map_eq_ok_iff, hv.requiredText_eq_ok_iff,
    hv.required_eq_ok_iff]
  exact ⟨_, _, ⟨_, _, ⟨_, ⟨_, rfl, hv.integer id⟩, rfl⟩, rfl, rfl⟩,
    ⟨_, rfl, hv.check_explanation e⟩, rfl⟩

theorem eq_of_acceptSource {t u : Text} (h : acceptSource settings t = .ok u) : u = t := by
  unfold acceptSource at h
  split at h
  · cases h
  · cases hlimit : sourceLimit settings with
    | error objection =>
      rw [hlimit] at h
      cases h
    | ok limit =>
      rw [hlimit] at h
      change (if _ then _ else _) = _ at h
      split at h
      · cases h
      · exact (Except.ok.inj h).symm

theorem eq_of_acceptLanguage {t u : Text} (h : acceptLanguage t = .ok u) : u = t := by
  unfold acceptLanguage at h
  split at h
  · exact (Except.ok.inj h).symm
  · cases h

/-- A request that passes its checks gives the texts of its fields. -/
theorem Validation.Lawful.gives_of_request (hv : v.Lawful) {value : Json} {q : ConvertRequest}
    (hok : check v settings value = .ok q) :
    ∃ fields, value = .object fields ∧ Gives fields Field.sourceCode q.sourceCode ∧
      Gives fields Field.sourceLanguage q.sourceLanguage ∧
      Gives fields Field.targetLanguage q.targetLanguage := by
  unfold check at hok
  by_cases hobject : ∃ fields, value = .object fields
  · obtain ⟨fields, rfl⟩ := hobject
    have hvalidated : ∀ {name : FieldName} {accept : Text → Except Objection Text} {t : Text},
        (∀ {t u : Text}, accept t = .ok u → u = t) →
        v.required name (v.validated v.text accept) fields = .ok t → Gives fields name t := by
      intro name accept t haccept hrequired
      obtain ⟨value, hvalue, hcheck⟩ := hv.required_eq_ok_iff.mp hrequired
      obtain ⟨u, hu, hsame⟩ := hv.exists_of_validated hcheck
      rw [Gives, hvalue, hv.text_eq_ok_iff.mp hu, haccept hsame]
    rw [hv.object] at hok
    simp only [hv.field_eq_ok_iff, Checked.map_eq_ok_iff] at hok
    obtain ⟨_, _, ⟨_, _, ⟨_, _, ⟨_, hcode, rfl⟩, hfirst, rfl⟩, hsecond, rfl⟩, -, rfl⟩ := hok
    exact ⟨fields, rfl, hvalidated eq_of_acceptSource hcode,
      hvalidated eq_of_acceptLanguage hfirst, hvalidated eq_of_acceptLanguage hsecond⟩
  · obtain ⟨kind, message, hrefused⟩ := hv.noObject "ConvertCodeRequest" _ (not_exists.mp hobject)
    rw [hrefused] at hok
    cases hok

/-! ## Conversions -/

/-- A record reports a conversion: what the request gave, and what its answer says. -/
structure Reports (server : Server) (r : Request) (a : Response) (record : Record) : Prop where
  request : ∃ value fields, server.value? r = .ok value ∧ requested value = .object fields ∧
    Gives fields Field.sourceCode record.sourceCode ∧
    Gives fields Field.sourceLanguage record.sourceLanguage ∧
    Gives fields Field.targetLanguage record.targetLanguage
  answer : ∃ explanation, Json.parse? record.explanation = some explanation ∧
    a.body = some (.object [("id", .int record.id), ("targetCode", .string record.targetCode),
      ("explanation", explanation)])

/-- A request to convert that was answered with a conversion. -/
def Converted (server : Server) (r : Request) (a : Response) : Prop :=
  server.dispatch r = .ok .convert ∧ a.status = 200

instance (x : Except Response Endpoint) : Decidable (x = .ok .convert) :=
  match x with
  | .ok endpoint => decidable_of_iff (endpoint = .convert) (by simp)
  | .error _ => isFalse (by simp)

instance (r : Request) (a : Response) : Decidable (Converted server r a) :=
  inferInstanceAs (Decidable (_ ∧ _))

/-- An explanation is read back from the body of its answer. -/
theorem parse?_explanation (e : Explanation) :
    Json.parse? (e.toJson .camel).render = some (e.toJson .camel) := by
  have hstep : ∀ s : ExplanationStep, Json.Plain (s.toJson .camel) := by
    intro s
    refine .object ?_ ?_
    · show [Field.title.camel, Field.sourceCode.camel, Field.targetCode.camel,
        Field.explanation.camel].Nodup
      decide
    · simp only [forall_mem_cons, not_mem_nil, false_implies, implies_true, and_true]
      exact ⟨.string _, .string _, .string _, .string _⟩
  apply Json.parse?_render
  refine .object ?_ ?_
  · show [Field.stepByStep.camel, Field.highLevel.camel, Field.languageDifferences.camel].Nodup
    decide
  · simp only [forall_mem_cons, not_mem_nil, false_implies, implies_true, and_true]
    refine ⟨.array ?_, .string _, .string _⟩
    simpa using fun s _ => hstep s

section

variable (settings time) (hv : v.Lawful) (hserver : server.Lawful)

include hv

/-- A conversion fails and changes nothing, or it is recorded and answered. -/
theorem History.Numbered.convert_cases (hnumbered : h.Numbered) (value : Json) :
    (convert v settings time h value).1 = h ∧ (convert v settings time h value).2.1 ∈ [400, 500] ∨
      ∃ record h' q e, check v settings value = .ok q ∧
        convert v settings time h value =
          (h', 200, ConvertResponse.toJson .camel ⟨record.id, record.targetCode, e⟩) ∧
        h.Grows [record] h' ∧ record.sourceCode = q.sourceCode ∧
        record.sourceLanguage = q.sourceLanguage ∧ record.targetLanguage = q.targetLanguage ∧
        record.explanation = (e.toJson .camel).render := by
  unfold convert
  cases hcheck : check v settings value with
  | error errors => exact .inl ⟨rfl, by simp⟩
  | ok q =>
    dsimp only
    cases Registry.convertExplained q.sourceCode q.sourceLanguage q.targetLanguage with
    | error fault => exact .inl ⟨rfl, by simp⟩
    | ok e =>
      dsimp only
      obtain ⟨record, h', hcreate, hgives, hgrows⟩ | ⟨-, hnone⟩ :=
        hnumbered.create_cases hv time ⟨.string q.sourceCode, .string e.targetCode,
          .string q.sourceLanguage, .string q.targetLanguage,
          .string (e.explanation.toJson .camel).render⟩
      · rw [hcreate]
        dsimp only
        rw [hv.check_response]
        refine .inr ⟨record, h', q, e.explanation, rfl, ?_, hgrows,
          (Json.string.inj hgives.sourceCode).symm, (Json.string.inj hgives.sourceLanguage).symm,
          (Json.string.inj hgives.targetLanguage).symm, (Json.string.inj hgives.explanation).symm⟩
        rw [← Json.string.inj hgives.targetCode]
      · exact absurd ⟨rfl, rfl, rfl, rfl, rfl⟩
          (hnone ⟨0, q.sourceCode, e.targetCode, q.sourceLanguage, q.targetLanguage, _, []⟩)

include hserver

/-- Only a conversion that is answered with status 200 changes the history: it is recorded under the
next number. -/
theorem History.Numbered.answer_cases (hnumbered : h.Numbered) (r : Request) :
    (answer v settings time server h r).1 = h ∧
        ¬ Converted server r (answer v settings time server h r).2 ∨
      Converted server r (answer v settings time server h r).2 ∧
        ∃ record, h.Grows [record] (answer v settings time server h r).1 ∧
          Reports server r (answer v settings time server h r).2 record := by
  unfold answer
  cases hdispatch : server.dispatch r with
  | error a => exact .inl ⟨rfl, fun hconverted => by cases hdispatch.symm.trans hconverted.1⟩
  | ok endpoint =>
    cases endpoint with
    | page page => exact .inl ⟨rfl, fun hconverted => by cases hdispatch.symm.trans hconverted.1⟩
    | convert =>
      -- No other endpoint writes to the history.
      dsimp only
      cases hvalue : server.value? r with
      | error a =>
        refine .inl ⟨rfl, fun hconverted => ?_⟩
        have hstatus := hconverted.2
        rw [hserver.broken hvalue] at hstatus
        cases hstatus
      | ok value =>
        dsimp only
        obtain ⟨hsame, hstatus⟩ | ⟨record, h', q, e, hcheck, hconvert, hgrows, hcode,
            hsource, htarget,
          hexplanation⟩ := hnumbered.convert_cases settings time hv (requested value)
        · refine .inl ⟨hsame, fun hconverted => ?_⟩
          have hfine := hconverted.2
          rw [hserver.status] at hfine
          rw [hfine] at hstatus
          simp at hstatus
        · have hhead : r.verb ≠ "HEAD".toList := by
            rw [hserver.posted hdispatch]
            decide
          obtain ⟨fields, hfields, hgives⟩ := hv.gives_of_request hcheck
          rw [hconvert]
          refine .inr ⟨⟨hdispatch, hserver.status _ _ _⟩, record, hgrows,
            ⟨value, fields, hvalue, hfields, ?_⟩, e.toJson .camel, ?_, hserver.body hhead _ _⟩
          · rwa [hcode, hsource, htarget]
          · rw [hexplanation]
            exact parse?_explanation e

end

/-! ## Several requests -/

/-- The requests to convert that were answered with a conversion, with their answers. -/
def conversions (server : Server) (requests : List Request)
    (responses : List Response) : List (Request × Response) :=
  (requests.zip responses).filter fun (r, a) => Converted server r a

theorem conversions_cons (r : Request) (a : Response) (requests : List Request)
    (responses : List Response) : conversions server (r :: requests) (a :: responses) =
      (if Converted server r a then [(r, a)] else []) ++ conversions server requests responses := by
  unfold conversions
  rw [zip_cons_cons, filter_cons]
  by_cases hconverted : Converted server r a <;> simp [hconverted]

variable (v settings time server h)

/-- A request leaves the history as it is and is answered with a body. -/
def Shows (r : Request) (status : Nat) (body : Json) : Prop :=
  (answer v settings time server h r).1 = h ∧
    (answer v settings time server h r).2.status = status ∧
    (answer v settings time server h r).2.body = some body

/-- A request leaves the history as it is and finds nothing. -/
def Misses (r : Request) : Prop :=
  (answer v settings time server h r).1 = h ∧ (answer v settings time server h r).2.status = 404

/-- What a service answers whose history was made of some records. -/
structure Remembers (records : List Record) : Prop where
  /-- Requests that fail or that only read change nothing. -/
  unchanged : ∀ r, (answer v settings time server h r).2.status = 400 ∨
    (answer v settings time server h r).2.status = 500 ∨ r.verb = "GET".toList →
      (answer v settings time server h r).1 = h
  /-- The records are numbered from one in the order in which they were made. -/
  numbered : ∀ (i : Nat) (record : Record), records[i]? = some record → record.id = i + 1
  /-- The records are listed, newest first. -/
  listed : ∀ r, Asks "GET" "/api/conversions" r →
    Shows v settings time server h r 200 (.array (records.reverse.map (Record.toJson .camel)))
  /-- The numbers fall from each record of the list to the next. -/
  falling : records.reverse.Pairwise fun newer older => older.id < newer.id
  /-- A record is shown under its number, also after any further requests. -/
  shown : ∀ digits r, IsNumeral digits → digits.length ≤ digitLimit →
    Asks "GET" (recordPath digits) r → ∀ (i : Nat) (record : Record) (more : List Request),
      natOfDigits digits = i + 1 → records[i]? = some record →
        Shows v settings time server (answerAll v settings time server h more).1 r 200
          (record.toJson .camel)
  /-- Nothing is shown under other numbers. -/
  missing : ∀ digits r, IsNumeral digits → Asks "GET" (recordPath digits) r →
    ¬ (1 ≤ natOfDigits digits ∧ natOfDigits digits ≤ records.length) →
      Misses v settings time server h r
  /-- Nothing is shown under negative numbers. -/
  negative : ∀ digits r, IsNumeral digits → Asks "GET" (recordPath ('-' :: digits)) r →
    Misses v settings time server h r

variable {v server h} (hv : v.Lawful) (hserver : server.Lawful)

include hserver

theorem answer_of_page {r : Request} {page : Page}
    (hdispatch : server.dispatch r = .ok (.page page))
    (hget : r.method = "GET".toList) : (answer v settings time server h r).1 = h ∧
      (answer v settings time server h r).2.status = (view h page).1 ∧
      (answer v settings time server h r).2.body = some (view h page).2 := by
  have hhead : r.verb ≠ "HEAD".toList := by
    rw [Request.verb, hget]
    decide
  unfold answer
  rw [hdispatch]
  exact ⟨rfl, hserver.status _ _ _, hserver.body hhead _ _⟩

omit hserver in
theorem misses_of_error {r : Request} (h' : ∃ a, server.dispatch r = .error a ∧ a.status = 404) :
    Misses v settings time server h r := by
  obtain ⟨a, hdispatch, hstatus⟩ := h'
  unfold Misses answer
  rw [hdispatch]
  exact ⟨rfl, hstatus⟩

include hv

/-- The records that requests make report the conversions among them. -/
theorem History.Numbered.answerAll_reports (hnumbered : h.Numbered) (requests : List Request) :
    ∃ records, h.Grows records (answerAll v settings time server h requests).1 ∧
      Forall₂ (fun conversion record => Reports server conversion.1 conversion.2 record)
        (conversions server requests (answerAll v settings time server h requests).2) records := by
  induction requests generalizing h with
  | nil => exact ⟨[], .refl hnumbered, .nil⟩
  | cons r requests ih =>
    rw [answerAll]
    have hcases := hnumbered.answer_cases settings time hv hserver r
    generalize answer v settings time server h r = result at hcases ⊢
    obtain ⟨next, a⟩ := result
    dsimp only at hcases ⊢
    rw [conversions_cons]
    obtain ⟨rfl, hnot⟩ | ⟨hconverted, record, hgrows, hreports⟩ := hcases
    · obtain ⟨records, hgrows, hreports⟩ := ih hnumbered
      rw [if_neg hnot]
      exact ⟨records, hgrows, hreports⟩
    · obtain ⟨records, hmore, hothers⟩ := ih hgrows.numbered
      rw [if_pos hconverted]
      exact ⟨record :: records, hgrows.trans hmore, .cons hreports hothers⟩

/-- A service remembers the records that were made. -/
theorem History.Numbered.remembers_made (hnumbered : h.Numbered) :
    Remembers v settings time server h h.made where
  unchanged := by
    intro r hr
    obtain ⟨hsame, -⟩ | ⟨⟨hdispatch, hstatus⟩, -⟩ :=
      hnumbered.answer_cases settings time hv hserver r
    · exact hsame
    · rw [hstatus, hserver.posted hdispatch] at hr
      rcases hr with hr | hr | hr <;> cases hr
  numbered := hnumbered.ids
  listed r hasks := by
    have hshows :=
      answer_of_page settings time hserver (hserver.conversions hasks) hasks.1 (v := v) (h := h)
    rw [view, hnumbered.list_eq] at hshows
    exact hshows
  falling := by
    rw [pairwise_reverse, pairwise_iff_getElem]
    intro i j hi hj hij
    have hfirst := hnumbered.ids i _ (getElem?_eq_getElem hi)
    have hsecond := hnumbered.ids j _ (getElem?_eq_getElem hj)
    omega
  shown := by
    intro digits r hdigits hsize hasks i record more hi hrecord
    obtain ⟨records, hgrows, -⟩ := hnumbered.answerAll_reports settings time hv hserver more
    have hshows := answer_of_page settings time hserver (hserver.conversion hdigits hsize hasks)
      hasks.1 (v := v) (h := (answerAll v settings time server h more).1)
    have hcast : ((i + 1 : Nat) : Int) = i + 1 := rfl
    rw [view, hi, hcast, hgrows.numbered.get?_succ, hgrows.getElem? hrecord] at hshows
    exact hshows
  missing := by
    intro digits r hdigits hasks hrange
    by_cases hsize : digits.length ≤ digitLimit
    · have hshows := answer_of_page settings time hserver
        (hserver.conversion hdigits hsize hasks) hasks.1 (v := v) (h := h)
      rw [view, hnumbered.get?_eq_none (by omega)] at hshows
      exact ⟨hshows.1, hshows.2.1⟩
    · exact misses_of_error settings time (hserver.oversized hdigits (by omega) hasks)
  negative digits r hdigits hasks := misses_of_error settings time (hserver.negative hdigits hasks)

end CodeConverter.Service
