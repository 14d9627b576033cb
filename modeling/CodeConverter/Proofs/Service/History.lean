import CodeConverter.Proofs.Service.Validation
import CodeConverter.Service.History
import Mathlib.Data.List.Basic

/-!
# What a history keeps

The keys of a history are the numbers of its records, from one on without gaps, and its counter is
at the next number. So a new record is put at the end, the number of a record finds it also after
any number of further records, and sorting by number gives the newest record first.
-/

namespace CodeConverter.Service

open List

variable {v : Validation} {d : Draft} {record : Record} {time : Text}

/-- The draft gives the texts of the record. -/
structure Draft.Gives (d : Draft) (record : Record) : Prop where
  sourceCode : d.sourceCode = .string record.sourceCode
  targetCode : d.targetCode = .string record.targetCode
  sourceLanguage : d.sourceLanguage = .string record.sourceLanguage
  targetLanguage : d.targetLanguage = .string record.targetLanguage
  explanation : d.explanation = .string record.explanation

/-- A draft passes its checks if it gives the texts of a record. -/
theorem Validation.Lawful.check_draft_eq_ok_iff (hv : v.Lawful) {id : Int} :
    Record.check v (.object (d.fields id time)) = .ok record ↔
      record.id = id ∧ d.Gives record ∧ record.createdAt = time := by
  have hid : v.required Field.id v.integer (d.fields id time) = .ok id := by
    have hfind : Field.id.find? (d.fields id time) = some ("id".toList, .int id) := rfl
    rw [hv.required v.integer hfind, hv.integer]
    rfl
  have htext : ∀ (name : FieldName) (value : Json) {t : Text},
      (name.find? (d.fields id time)).map Prod.snd = some value →
      (v.required name v.text (d.fields id time) = .ok t ↔ value = .string t) := by
    intro name value t hvalue
    rw [hv.requiredText_eq_ok_iff, Service.Gives, hvalue, Option.some.injEq]
  unfold Record.check
  rw [hv.object]
  simp only [hv.field_eq_ok_iff, Checked.map_eq_ok_iff, hid, htext Field.sourceCode _ rfl,
    htext Field.targetCode _ rfl, htext Field.sourceLanguage _ rfl,
    htext Field.targetLanguage _ rfl, htext Field.explanation _ rfl, htext Field.createdAt _ rfl]
  constructor
  · rintro ⟨_, _, ⟨_, _, ⟨_, _, ⟨_, _, ⟨_, _, ⟨_, _, ⟨_, hnumber, rfl⟩, hcode, rfl⟩, htarget, rfl⟩,
      hsource, rfl⟩, hlanguage, rfl⟩, hexplanation, rfl⟩, htime, rfl⟩
    exact ⟨(Except.ok.inj hnumber).symm, ⟨hcode, htarget, hsource, hlanguage, hexplanation⟩,
      (Json.string.inj htime).symm⟩
  · rintro ⟨rfl, hgives, rfl⟩
    exact ⟨_, _, ⟨_, _, ⟨_, _, ⟨_, _, ⟨_, _, ⟨_, _, ⟨_, rfl, rfl⟩, hgives.sourceCode, rfl⟩,
      hgives.targetCode, rfl⟩, hgives.sourceLanguage, rfl⟩, hgives.targetLanguage, rfl⟩,
      hgives.explanation, rfl⟩, rfl, rfl⟩

namespace History

variable {h h' h'' : History} {records more : List Record}

/-! ## Numbered histories -/

/-- The records in the order in which they were made. -/
def made (h : History) : List Record :=
  h.records.map Prod.snd

/-- The records stand under their numbers, which count from one on, and the counter is at the next
number. -/
structure Numbered (h : History) : Prop where
  keys : h.records = h.made.map fun record => (record.id, record)
  ids : ∀ (i : Nat) (record : Record), h.made[i]? = some record → record.id = i + 1
  next : h.nextId = h.made.length + 1

theorem numbered_empty : empty.Numbered where
  keys := rfl
  ids := by
    intro i record hrecord
    cases hrecord
  next := rfl

theorem put_of_fresh {id : Int} {entries : List (Int × Record)}
    (hfresh : ∀ entry ∈ entries, entry.1 ≠ id) :
    put id record entries = entries ++ [(id, record)] := by
  induction entries with
  | nil => rfl
  | cons entry entries ih =>
    obtain ⟨hentry, hentries⟩ := forall_mem_cons.mp hfresh
    rw [put, if_neg hentry, ih hentries]
    rfl

theorem lookup_numbered {k : Int}
    (hids : ∀ (i : Nat) (record : Record), records[i]? = some record → record.id = k + i)
    (i : Nat) : (records.map fun record => (record.id, record)).lookup (k + i) = records[i]? := by
  induction records generalizing k i with
  | nil => rfl
  | cons record records ih =>
    have hid : record.id = k := by simpa using hids 0 record rfl
    cases i with
    | zero => simp [hid]
    | succ i =>
      have hne : (k + ((i + 1 : Nat) : Int) == record.id) = false := by
        rw [beq_eq_false_iff_ne, hid]
        omega
      have htail := ih (k := k + 1) (fun j old hj => by rw [hids (j + 1) old hj]; omega) i
      rw [map_cons, lookup_cons, hne, getElem?_cons_succ, ← htail]
      exact congrArg (lookup · _) (by omega)

namespace Numbered

variable (hnumbered : h.Numbered)

include hnumbered

theorem id_le_length (hmem : record ∈ h.made) : 1 ≤ record.id ∧ record.id ≤ h.made.length := by
  obtain ⟨i, hi⟩ := mem_iff_getElem?.mp hmem
  have hid := hnumbered.ids i record hi
  have hlength := (List.getElem?_eq_some_iff.mp hi).1
  omega

/-- A record with the next number is put at the end. -/
theorem put_next (hid : record.id = h.nextId) :
    put record.id record h.records = h.records ++ [(record.id, record)] := by
  refine put_of_fresh fun entry hmem heq => ?_
  rw [hnumbered.keys] at hmem
  obtain ⟨old, hold, rfl⟩ := mem_map.mp hmem
  have hle := (hnumbered.id_le_length hold).2
  have hnext := hnumbered.next
  have heq : old.id = record.id := heq
  omega

/-- The history with a record more under the next number. -/
theorem grown (hid : record.id = h.nextId) :
    Numbered ⟨put record.id record h.records, h.nextId + 1⟩ ∧
      made ⟨put record.id record h.records, h.nextId + 1⟩ = h.made ++ [record] := by
  have hmade : made ⟨put record.id record h.records, h.nextId + 1⟩ = h.made ++ [record] := by
    show map Prod.snd (put record.id record h.records) = _
    rw [hnumbered.put_next hid, map_append]
    rfl
  refine ⟨⟨?_, ?_, ?_⟩, hmade⟩
  · rw [hmade, map_append, ← hnumbered.keys]
    exact hnumbered.put_next hid
  · intro i old hold
    rw [hmade] at hold
    by_cases hi : i < h.made.length
    · rw [getElem?_append_left hi] at hold
      exact hnumbered.ids i old hold
    · obtain ⟨rfl, rfl⟩ : i = h.made.length ∧ record = old := by
        rw [getElem?_append_right (by omega), getElem?_singleton] at hold
        split at hold
        · exact ⟨by omega, Option.some.inj hold⟩
        · cases hold
      rw [hid, hnumbered.next]
  · show h.nextId + 1 = _
    rw [hmade, hnumbered.next, length_append]
    rfl

/-- A record is found by its number. -/
theorem get?_succ (i : Nat) : h.get? (i + 1) = h.made[i]? := by
  rw [get?, hnumbered.keys, Int.add_comm]
  exact lookup_numbered (fun j record hj => by rw [hnumbered.ids j record hj, Int.add_comm]) i

/-- Nothing is found by other numbers. -/
theorem get?_eq_none {id : Int} (hid : ¬ (1 ≤ id ∧ id ≤ h.made.length)) : h.get? id = none := by
  rw [get?, hnumbered.keys, lookup_eq_none_iff]
  intro entry hmem
  obtain ⟨record, hrecord, rfl⟩ := mem_map.mp hmem
  have hrange := hnumbered.id_le_length hrecord
  rw [bne_iff_ne]
  rintro rfl
  exact hid hrange

/-- The greatest number first is the newest record first. -/
theorem list_eq : h.list = h.made.reverse := by
  have hsorted : h.made.Pairwise fun older newer => older.id < newer.id := by
    rw [pairwise_iff_getElem]
    intro i j hi hj hij
    have hfirst := hnumbered.ids i _ (getElem?_eq_getElem hi)
    have hsecond := hnumbered.ids j _ (getElem?_eq_getElem hj)
    omega
  have hreverse : h.made.reverse.Pairwise fun a b => decide (b.id ≤ a.id) = true := by
    rw [pairwise_reverse]
    exact hsorted.imp fun hlt => decide_eq_true (Int.le_of_lt hlt)
  refine Perm.eq_of_pairwise ?_
    (pairwise_mergeSort ?_ ?_ _) hreverse ((mergeSort_perm _ _).trans (reverse_perm _).symm)
  · -- Two records with the same number are the same record.
    intro a b ha hb hab hba
    obtain ⟨i, hi⟩ := mem_iff_getElem?.mp ((mergeSort_perm _ _).mem_iff.mp ha)
    obtain ⟨j, hj⟩ := mem_iff_getElem?.mp (mem_reverse.mp hb)
    have hfirst := hnumbered.ids i a hi
    have hsecond := hnumbered.ids j b hj
    have hsame : a.id = b.id := Int.le_antisymm (of_decide_eq_true hba) (of_decide_eq_true hab)
    obtain rfl : i = j := by omega
    exact Option.some.inj (hi.symm.trans hj)
  · intro a b c hab hbc
    simp only [decide_eq_true_eq] at hab hbc ⊢
    omega
  · intro a b
    simp only [Bool.or_eq_true, decide_eq_true_eq]
    omega

end Numbered

/-! ## Growing histories -/

/-- One history comes from another one by some further records. -/
structure Grows (h : History) (records : List Record) (h' : History) : Prop where
  numbered : h'.Numbered
  made : h'.made = h.made ++ records

namespace Grows

theorem refl (hnumbered : h.Numbered) : h.Grows [] h where
  numbered := hnumbered
  made := (append_nil _).symm

theorem trans (hfirst : h.Grows records h') (hsecond : h'.Grows more h'') :
    h.Grows (records ++ more) h'' where
  numbered := hsecond.numbered
  made := by rw [hsecond.made, hfirst.made, append_assoc]

/-- A record stays at its place. -/
theorem getElem? (hgrows : h.Grows records h') {i : Nat} (hrecord : h.made[i]? = some record) :
    h'.made[i]? = some record := by
  rw [hgrows.made, getElem?_append_left (List.getElem?_eq_some_iff.mp hrecord).1, hrecord]

end Grows

/-- A draft that gives all texts of a record is kept under the next number. Others fail. -/
theorem Numbered.create_cases (hv : v.Lawful) (hnumbered : h.Numbered) (time : Text) (d : Draft) :
    (∃ record h', h.create v time d = .ok (record, h') ∧ d.Gives record ∧ h.Grows [record] h') ∨
      (∃ errors, h.create v time d = .error errors) ∧ ∀ record, ¬ d.Gives record := by
  unfold create
  cases hcheck : Record.check v (.object (d.fields h.nextId time)) with
  | error errors =>
    refine .inr ⟨⟨errors, rfl⟩, fun record hgives => ?_⟩
    have hgives : d.Gives { record with id := h.nextId, createdAt := time } :=
      ⟨hgives.1, hgives.2, hgives.3, hgives.4, hgives.5⟩
    rw [hv.check_draft_eq_ok_iff.mpr ⟨rfl, hgives, rfl⟩] at hcheck
    cases hcheck
  | ok record =>
    obtain ⟨hid, hgives, -⟩ := hv.check_draft_eq_ok_iff.mp hcheck
    obtain ⟨hnumbered', hmade⟩ := hnumbered.grown hid
    exact .inl ⟨record, _, rfl, hgives, hnumbered', hmade⟩

/-! ## Uses of a history -/

/-- A use of a history. -/
inductive Use where
  | create (time : Text) (d : Draft)
  | find (key : Json)
  | list

/-- What a use gives back. -/
inductive Outcome where
  | created (record : Checked Record)
  | found (record : Except KeyFault (Option Record))
  | listed (records : List Record)

/-- The record that was made, if one was. -/
def Outcome.made? : Outcome → Option Record
  | .created (.ok record) => some record
  | _ => none

/-- The history after a use, and what the use gives back. -/
def perform (v : Validation) (h : History) : Use → History × Outcome
  | .create time d =>
    match h.create v time d with
    | .ok (record, h) => (h, .created (.ok record))
    | .error errors => (h, .created (.error errors))
  | .find key => (h, .found (h.find key))
  | .list => (h, .listed h.list)

/-- The history after several uses, and what they give back. -/
def performAll (v : Validation) : History → List Use → History × List Outcome
  | h, [] => (h, [])
  | h, use :: uses =>
    let (h, outcome) := h.perform v use
    let (h, outcomes) := performAll v h uses
    (h, outcome :: outcomes)

section

variable (hv : v.Lawful)

include hv

theorem Numbered.grows_perform (hnumbered : h.Numbered) (use : Use) :
    h.Grows (h.perform v use).2.made?.toList (h.perform v use).1 := by
  cases use with
  | find key | list => exact .refl hnumbered
  | create time d =>
    obtain ⟨record, h', hcreate, -, hgrows⟩ | ⟨⟨errors, hcreate⟩, -⟩ :=
      hnumbered.create_cases hv time d
    · rw [perform, hcreate]
      exact hgrows
    · rw [perform, hcreate]
      exact .refl hnumbered

/-- A history grows by the records that were made. -/
theorem Numbered.grows_performAll (hnumbered : h.Numbered) (uses : List Use) :
    h.Grows ((h.performAll v uses).2.filterMap Outcome.made?) (h.performAll v uses).1 := by
  induction uses generalizing h with
  | nil => exact .refl hnumbered
  | cons use uses ih =>
    have hfirst := hnumbered.grows_perform hv use
    have htrans := hfirst.trans (ih hfirst.numbered)
    show h.Grows (((h.perform v use).2 :: _).filterMap Outcome.made?) _
    cases hmade : (h.perform v use).2.made? with
    | none =>
      rw [hmade] at htrans
      rw [filterMap_cons_none hmade]
      exact htrans
    | some record =>
      rw [hmade] at htrans
      rw [filterMap_cons_some hmade]
      exact htrans

end

/-- What every use of a history gives back that was made of some records. -/
structure Keeps (v : Validation) (h : History) (records : List Record) : Prop where
  /-- The records are listed, newest first. -/
  listed : h.perform v .list = (h, .listed records.reverse)
  /-- Looking for a record changes nothing. -/
  unchanged : ∀ key, (h.perform v (.find key)).1 = h
  /-- A record has the number of its place and is found under it, for good. -/
  found : ∀ (i : Nat) (record : Record), records[i]? = some record → record.id = i + 1 ∧
    ∀ uses, ((h.performAll v uses).1.perform v (.find (.int (i + 1)))).2 =
    .found (.ok (some record)) /-- Nothing is found under other numbers. -/
  missing : ∀ id : Int, ¬ (1 ≤ id ∧ id ≤ records.length) →
    (h.perform v (.find (.int id))).2 = .found (.ok none)
  /-- A draft that gives all texts of a record is kept. Others fail and change nothing. -/
  created : ∀ time d,
    (∃ record h', h.perform v (.create time d) = (h', .created (.ok record)) ∧ d.Gives record ∧
      h'.made = records ++ [record]) ∨
    (∃ errors, h.perform v (.create time d) = (h, .created (.error errors))) ∧
      ∀ record, ¬ d.Gives record

/-- A history shows the records that were made. -/
theorem Numbered.keeps_made (hv : v.Lawful) (hnumbered : h.Numbered) : h.Keeps v h.made where
  listed := by rw [perform, hnumbered.list_eq]
  unchanged _ := rfl
  found := by
    intro i record hrecord
    refine ⟨hnumbered.ids i record hrecord, fun uses => ?_⟩
    have hgrows := hnumbered.grows_performAll hv uses
    show Outcome.found (.ok ((h.performAll v uses).1.get? (i + 1))) = _
    rw [hgrows.numbered.get?_succ, hgrows.getElem? hrecord]
  missing id hid := by
    show Outcome.found (.ok (h.get? id)) = _
    rw [hnumbered.get?_eq_none hid]
  created time d := by
    obtain ⟨record, h', hcreate, hgives, hgrows⟩ | ⟨⟨errors, hcreate⟩, hnone⟩ :=
      hnumbered.create_cases hv time d
    · rw [perform, hcreate]
      exact .inl ⟨record, h', rfl, hgives, hgrows.made⟩
    · rw [perform, hcreate]
      exact .inr ⟨⟨errors, rfl⟩, hnone⟩

end History

end CodeConverter.Service
