import CodeConverter.Proofs.Service.App

/-!
# Which requests are rejected

A request to convert is rejected with status 400 just if it is no object or one of its fields fails.
The answer then names the fields that fail, in order.
-/

namespace CodeConverter.Service

open Text
open List hiding dropPrefix?

/-! ## What is asked of a request -/

/-- A field under the name that it is reported under, with its value if it is present. -/
def given (name : FieldName) (fields : List (Text × Json)) : Text × Option Json :=
  match Json.field? name.camel fields, Json.field? name.snake fields with
  | some value, _ => (name.camel, some value)
  | none, some value => (name.snake, some value)
  | none, none => (name.camel, none)

/-- A field has to hold a text that does not fail. A string with an unpaired surrogate is no
text. -/
def textFails (fails : Text → Bool) : Option Json → Bool
  | some (.string t) => fails t
  | _ => true

/-- Source code must not be blank and not too long. -/
def sourceFails (limit : Int) : Option Json → Bool :=
  textFails fun t => t.all isBlank || limit < t.length

/-- A language must be a catalogued tag. -/
def languageFails : Option Json → Bool :=
  textFails fun t => Language.catalogue.all (·.tag ≠ t)

/-- A skill level may be missing. -/
def skillFails : Option Json → Bool
  | none => false
  | some .null => false
  | some value =>
    textFails (fun t => ["beginner", "intermediate", "advanced"].all (·.toList ≠ t)) (some value)

/-- The name of a field that fails. -/
def blamed (name : FieldName) (fails : Option Json → Bool) (fields : List (Text × Json)) :
    List Text :=
  if fails (given name fields).2 then [(given name fields).1] else []

/-- The names of the fields that fail, in the order in which they are checked. -/
def failing (limit : Int) (fields : List (Text × Json)) : List Text :=
  blamed Field.sourceCode (sourceFails limit) fields ++
    blamed Field.sourceLanguage languageFails fields ++
    blamed Field.targetLanguage languageFails fields ++ blamed Field.skillLevel skillFails fields

/-! ## Checks -/

variable {α β : Type} {names more : List Text} {name : FieldName} {fields : List (Text × Json)}
  {fails : Option Json → Bool} {check : Json → Checked α} {x : Checked α} {v : Validation}
  {server : Server}

namespace Checked

/-- The check has just one error for each of the names, in order. -/
def Blames (names : List Text) : Checked α → Prop
  | .ok _ => names = []
  | .error errors => names ≠ [] ∧ errors.map FieldError.field = names

/-- The value is refused if it fails and passes otherwise. -/
def Judged (fails : Bool) (x : Checked α) : Prop :=
  if fails then x.Refused else ∃ a, x = .ok a

theorem Blames.map (h : x.Blames names) (f : α → β) : (x.map f).Blames names := by
  cases x <;> exact h

theorem Judged.inside {b : Bool} (h : x.Judged b) (found : Text) :
    (x.inside found).Blames (if b then [found] else []) := by
  cases b with
  | false =>
    obtain ⟨a, rfl⟩ := h
    rfl
  | true =>
    obtain ⟨kind, message, rfl⟩ := h
    exact ⟨cons_ne_nil _ _, congrArg (· :: []) (join_singleton _ found)⟩

end Checked

theorem find?_cases (name : FieldName) (fields : List (Text × Json)) :
    (∃ found value, name.find? fields = some (found, value) ∧
        given name fields = (found, some value)) ∨
      name.find? fields = none ∧ given name fields = (name.camel, none) := by
  unfold given FieldName.find?
  cases Json.field? name.camel fields with
  | some value => exact .inl ⟨_, value, rfl, rfl⟩
  | none =>
    cases Json.field? name.snake fields with
    | some value => exact .inl ⟨_, value, rfl, rfl⟩
    | none => exact .inr ⟨rfl, rfl⟩

namespace Validation.Lawful

variable (hv : v.Lawful)

include hv

/-- The objections to a field follow those before it. -/
theorem blames_field {f : Checked (α → β)} (hf : f.Blames names) (hx : x.Blames more) :
    (v.field f x).Blames (names ++ more) := by
  cases f with
  | ok g =>
    obtain rfl : names = [] := hf
    cases x with
    | ok a =>
      rw [hv.field]
      exact hx
    | error errors =>
      rw [hv.field_right]
      exact hx
  | error errors =>
    rw [hv.field_left]
    refine ⟨append_ne_nil_of_left_ne_nil hf.1 _, ?_⟩
    cases x with
    | ok a => rw [map_append, hf.2, show more = [] from hx]; rfl
    | error others => rw [map_append, hf.2, hx.2]

theorem blames_required (hnone : fails none = true)
    (hcheck : ∀ value, (check value).Judged (fails (some value))) :
    (v.required name check fields).Blames (blamed name fails fields) := by
  unfold blamed
  rcases find?_cases name fields with ⟨found, value, hfind, hgiven⟩ | ⟨hfind, hgiven⟩
  · rw [hv.required check hfind, hgiven]
    exact (hcheck value).inside found
  · obtain ⟨kind, message, hmissing⟩ := hv.missing check hfind
    rw [hmissing, hgiven, if_pos hnone]
    exact ⟨cons_ne_nil _ _, congrArg (· :: []) (join_singleton _ name.camel)⟩

/-- A text field is judged by what its validator objects to. -/
theorem judged_validated {accept : Text → Except Objection Text} {fails : Text → Bool}
    (haccept : ∀ t, if fails t then ∃ message, accept t = .error (.worded message)
      else accept t = .ok t) (value : Json) :
    (v.validated v.text accept value).Judged (textFails fails (some value)) := by
  have htext := hv.text value
  cases value with
  | string t =>
    have hdecides := hv.validated accept htext
    have hobjects := haccept t
    show Checked.Judged (fails t) _
    cases hfails : fails t with
    | false =>
      rw [hfails] at hobjects
      rw [show accept t = .ok t from hobjects] at hdecides
      obtain hok | ⟨_, _, herror, -⟩ := hdecides
      · exact ⟨t, hok⟩
      · cases herror
    | true =>
      rw [hfails] at hobjects
      obtain ⟨message, hmessage⟩ := hobjects
      rw [hmessage] at hdecides
      obtain hrefused | ⟨_, _, herror, -⟩ := hdecides
      · exact hrefused
      · cases herror
  | _ =>
    obtain ⟨kind, message, hrefused⟩ := htext
    exact ⟨kind, message, hv.unvalidated accept hrefused⟩

theorem judged_source (s : Settings) (value : Json) :
    (v.validated v.text (ConvertRequest.acceptSource (.ok s)) value).Judged
      (sourceFails s.maxSourceLength (some value)) := by
  refine hv.judged_validated (fun t => ?_) value
  have hblank : (strip t).isEmpty = t.all isBlank := by
    rw [Bool.eq_iff_iff, List.isEmpty_iff, strip_eq_nil_iff, all_eq_true]
  unfold ConvertRequest.acceptSource
  rw [hblank]
  cases t.all isBlank with
  | true => exact ⟨_, rfl⟩
  | false =>
    by_cases hlong : s.maxSourceLength < t.length
    · rw [if_pos (by simp [hlong])]
      exact ⟨_, if_pos hlong⟩
    · rw [if_neg (by simp [hlong])]
      exact if_neg hlong

theorem judged_language (value : Json) :
    (v.validated v.text ConvertRequest.acceptLanguage value).Judged
    (languageFails (some value)) := by
  refine hv.judged_validated (fun t => ?_) value
  have hknown : Language.isKnown t = !Language.catalogue.all (·.tag ≠ t) := by
    rw [Language.isKnown, Language.ofTag?, Bool.eq_iff_iff, find?_isSome]
    simp
  rw [ConvertRequest.acceptLanguage, hknown]
  cases Language.catalogue.all (·.tag ≠ t) with
  | true => exact ⟨_, rfl⟩
  | false => rfl

theorem judged_skill {value : Json} (hnull : value ≠ .null) :
    ((v.choice SkillLevel.named value).map some).Judged (skillFails (some value)) := by
  have hchoice := hv.choice SkillLevel.named value
  cases value with
  | null => exact absurd rfl hnull
  | string t =>
    have hlookup : ∀ levels : List (Text × SkillLevel),
        (levels.map Prod.fst).all (· ≠ t) = (levels.lookup t).isNone := by
      intro levels
      rw [Bool.eq_iff_iff, Option.isNone_iff_eq_none, lookup_eq_none_iff, all_map, all_eq_true]
      refine forall₂_congr fun level _ => ?_
      simp only [Function.comp_apply, decide_eq_true_eq, bne_iff_ne]
      exact ne_comm
    show Checked.Judged ((SkillLevel.named.map Prod.fst).all (· ≠ t)) _
    rw [hlookup]
    change (v.choice SkillLevel.named (.string t)).Decides (SkillLevel.named.lookup t) at hchoice
    cases hfound : SkillLevel.named.lookup t with
    | none =>
      rw [hfound] at hchoice
      obtain ⟨kind, message, hrefused⟩ := hchoice
      exact ⟨kind, message, by rw [hrefused]; rfl⟩
    | some level =>
      rw [hfound] at hchoice
      exact ⟨some level, by rw [show v.choice _ _ = _ from hchoice]; rfl⟩
  | _ =>
    obtain ⟨kind, message, hrefused⟩ := hchoice
    exact ⟨kind, message, by rw [hrefused]; rfl⟩

theorem blames_skill :
    (v.optional name (v.choice SkillLevel.named) fields).Blames
    (blamed name skillFails fields) := by
  unfold blamed
  rcases find?_cases name fields with ⟨found, value, hfind, hgiven⟩ | ⟨hfind, hgiven⟩
  · rw [hgiven]
    by_cases hnull : value = .null
    · rw [hv.omitted _ (by simp [hfind, hnull]), hnull]
      rfl
    · rw [hv.optional _ hfind hnull]
      exact (hv.judged_skill hnull).inside found
  · rw [hgiven, hv.omitted _ (by simp [hfind])]
    rfl

theorem blames_request (s : Settings) (fields : List (Text × Json)) :
    (ConvertRequest.check v (.ok s) (.object fields)).Blames
    (failing s.maxSourceLength fields) := by
  unfold ConvertRequest.check
  rw [hv.object]
  exact hv.blames_field (hv.blames_field (hv.blames_field
    ((hv.blames_required rfl (hv.judged_source s)).map _)
    (hv.blames_required rfl hv.judged_language)) (hv.blames_required rfl hv.judged_language))
    hv.blames_skill

end Validation.Lawful

theorem convert_status_of_ok {settings : Except SettingsFault Settings} {value : Json}
    {q : ConvertRequest} (hcheck : ConvertRequest.check v settings value = .ok q) (time : Text)
    (h : History) : (convert v settings time h value).2.1 = 200 ∨
      (convert v settings time h value).2.1 = 500 := by
  simp only [convert, hcheck]
  split
  · exact .inr rfl
  · split
    · exact .inr rfl
    · split
      · exact .inr rfl
      · exact .inl rfl

end CodeConverter.Service
