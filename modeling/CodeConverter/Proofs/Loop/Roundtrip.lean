import CodeConverter.Proofs.Loop.Layout
import CodeConverter.Proofs.Text.Numeral

/-!
# Ranges through headers and back

The header of the loop over a range is a `Written` header with single spaces. Reading it gives the
range back (`rangeArguments_countingLoop`): its start, its stop and, unless it is one, its step.
-/

namespace CodeConverter.Loop

open Text Pattern Program List

variable {name start stop step t : Text} {declaration : Text}

/-- The header of the loop over the range is read with its variable, and the range is
`arguments`. -/
def ReadBack (name : Text) (range : List Text) (declaration arguments : Text) : Prop :=
  ∃ loop h, countingLoop name range declaration = some loop ∧
    Header.parse? ("for " ++ loop) = some h ∧ h.name = name ∧
    rangeArguments h = .ok (some arguments)

/-- No blank at all. -/
def Blanks.nothing : Blanks :=
  ⟨[], nofun⟩

/-- One space. -/
def Blanks.space : Blanks :=
  ⟨[' '], by decide⟩

/-- The spaces of a header that is written from a range: around the signs and behind the
semicolons. -/
def spaces (i : Nat) : Blanks :=
  if i ∈ [0, 2, 3, 5, 6, 7, 9] then .space else .nothing

/-- A keyword and a space. -/
def Declaration.keyword (type : Text) (hne : type ≠ [])
    (hchars : ∀ c ∈ type, wordOr "<>[]" c = true) : Declaration :=
  ⟨type, .space, hne, hchars, cons_ne_nil _ _⟩

theorem exists_declared (h : declaration ∈ (["", "let ", "int "] : List Text)) :
    ∃ d : Option Declaration, declared d = declaration := by
  simp only [mem_cons, not_mem_nil, or_false] at h
  rcases h with rfl | rfl | rfl
  · exact ⟨none, rfl⟩
  · exact ⟨some (.keyword "let" (by decide) (by decide)), rfl⟩
  · exact ⟨some (.keyword "int" (by decide) (by decide)), rfl⟩

/-- A header written from a range. -/
def Written.ofRange (d : Option Declaration) (comparison : Comparison) (update : Update)
    (hname : IsName name) (hstart : IsPart start) (hstop : IsPart stop) : Written where
  gap := spaces
  declaration := d
  name := name
  start := start
  comparison := comparison
  bound := stop
  update := update
  finish := []
  isName := hname
  isPart_start := hstart
  isPart_bound := hstop
  bound_apart := nofun
  finish_cases := .inl rfl

theorem negate_of_strip {word : Text} (hstrip : strip t = word) (h : IsName word) :
    negate t = '-' :: word := by
  have hsimple : simpleOperand.matchesStart word = true := by
    have hmany :=
      @first_many1 (first .atEnd some) (.start word) _ (wordOr ".") word []
        (append_nil word).symm h.1
      (fun c hc => by simp [wordOr, h.2 c hc]) (by simp) (first_atEnd rfl rfl)
    obtain ⟨m, hm, -⟩ := matchStart_of_first (p := simpleOperand) (t := word)
      (by rw [simpleOperand, first_append, first_append]; exact first_atStart rfl hmany)
    rw [matchesStart, hm]
    rfl
  -- The case of `negate` for a leading minus sign is the one that this excludes.
  have hminus : ∀ rest, word ≠ '-' :: rest := by
    rintro rest rfl
    exact h.not_mem rfl mem_cons_self
  simp only [negate, hstrip, hsimple, if_true]
  rfl

theorem tightStep_of_no_space (h : ' ' ∉ step) : tightStep step = step := by
  have hfilter : step.filter (· ≠ ' ') = step :=
    filter_eq_self.mpr fun c hc => decide_eq_true fun heq => h (heq ▸ hc)
  rw [tightStep, hfilter, ite_self]

theorem Written.text_ofRange (d : Option Declaration) (comparison : Comparison) (update : Update)
    (hname : IsName name)
    (hstart : IsPart start) (hstop : IsPart stop) :
    (Written.ofRange d comparison update hname hstart hstop).text =
      "for (" ++
      (declared d ++
      (name ++ (" = " ++ (start ++ ("; " ++ (name ++ (" " ++ (comparison.text ++ (" " ++
        (stop ++ ("; " ++ (update.text name ++ ")")))))))))))) := by
  simp [Written.text, Written.condition, Written.ending, Written.ofRange, spaces, Blanks.space,
    Blanks.nothing]

/-- The step that a header writes upwards for a word and downwards for a word behind a minus
sign. -/
def Update.ofWord (up : Bool) (hstep : IsIdentifier step) : Update :=
  if step = ['1'] then .behind .nothing up else .amount .space up .space step hstep

theorem Update.step_ofWord (up : Bool) (hstep : IsIdentifier step) :
    (Update.ofWord up hstep).step = ⟨up, step⟩ := by
  rw [Update.ofWord]
  split
  · rename_i hone
    rw [hone]
    rfl
  · rfl

theorem parse?_ofRange (d : Option Declaration) (comparison : Comparison) (up : Bool)
    (hname : IsName name)
    (hstart : IsPart start) (hstop : IsPart stop) (hstep : IsIdentifier step) :
    Header.parse?
    ("for " ++
    ("(" ++ declared d ++ name ++ " = " ++ start ++ "; " ++ name ++ " " ++ comparison.text ++
    " " ++ stop ++
      "; " ++ (Update.ofWord up hstep).text name ++ ")")) = some ⟨name, start, comparison, stop,
      ⟨up, step⟩⟩ := by
  have hparse := (Written.ofRange d comparison (.ofWord up hstep) hname hstart hstop).parse?_text
  rw [Written.text_ofRange, Written.header, Written.ofRange, Update.step_ofWord] at hparse
  rw [← hparse]
  congr 1
  simp

theorem readBack_of_isIdentifier (hname : IsName name) (hstart : IsPart start) (hstop : IsPart stop)
    (hstep : IsIdentifier step)
    (hdeclaration : declaration ∈ (["", "let ", "int "] : List Text)) :
    ReadBack name [start, stop, step] declaration
      (if step = ['1'] then start ++ ", " ++ stop else start ++ ", " ++ stop ++ ", " ++ step) := by
  obtain ⟨d, rfl⟩ := exists_declared hdeclaration
  have hparse := parse?_ofRange d .less true hname hstart hstop hstep
  refine ⟨_, ⟨name, start, .less, stop, ⟨true, step⟩⟩, rfl, ?_, rfl, rfl⟩
  rw [← hparse, loopHeader, tightStep_of_no_space (hstep.not_mem rfl)]
  congr 2
  split
  · exact absurd mem_cons_self (hstep.not_mem (d := '-') rfl)
  · rw [Update.ofWord]
    split <;> simp [Update.text, Blanks.nothing, Blanks.space, Comparison.text, signOf]

theorem readBack_of_minus (hname : IsName name) (hstart : IsPart start) (hstop : IsPart stop)
    (hstep : IsName step) (hdeclaration : declaration ∈ (["", "let ", "int "] : List Text)) :
    ReadBack name [start, stop, '-' :: step] declaration
    (start ++ ", " ++ stop ++ ", " ++ '-' :: step) := by
  obtain ⟨d, rfl⟩ := exists_declared hdeclaration
  have hparse := parse?_ofRange d .greater false hname hstart hstop hstep.isIdentifier
  have htight : tightStep ('-' :: step) = '-' :: step :=
    tightStep_of_no_space (by simpa using hstep.not_mem (d := ' ') rfl)
  refine ⟨_, ⟨name, start, .greater, stop, ⟨false, step⟩⟩, rfl, ?_, rfl, ?_⟩
  · rw [← hparse, loopHeader, htight, Update.ofWord]
    simp only [hstep.stripped]
    split <;> simp [Update.text, Blanks.nothing, Blanks.space, Comparison.text, signOf]
  · show Except.ok (some (start ++ ", " ++ stop ++ ", " ++ negate step)) = _
    rw [negate_of_strip hstep.stripped hstep]

/-- Reading the header of the loop over a range gives the range back. A step of one is left out. -/
theorem rangeArguments_countingLoop (hname : IsName name) (hstart : IsPart start)
    (hstop : IsPart stop) (hdeclaration : declaration ∈ (["", "let ", "int "] : List Text))
    (hstep : IsIdentifier step ∨ ∃ n : Int, n ≠ 0 ∧ step = signedDecimal n) :
    ReadBack name [stop] declaration ("0, " ++ stop) ∧
    ReadBack name [start, stop] declaration (start ++ ", " ++ stop) ∧
      ReadBack name [start, stop, "1"] declaration (start ++ ", " ++ stop) ∧
      (step ≠ "1" →
      ReadBack name [start, stop, step] declaration (start ++ ", " ++ stop ++ ", " ++ step)) := by
  have hone : IsIdentifier ['1'] := by decide
  have hzero : IsPart ['0'] := ⟨cons_ne_nil _ _, rfl, by decide⟩
  refine ⟨readBack_of_isIdentifier hname hzero hstop hone hdeclaration,
    readBack_of_isIdentifier hname hstart hstop hone hdeclaration,
    readBack_of_isIdentifier hname hstart hstop hone hdeclaration, fun hne => ?_⟩
  have hword : ∀ {t}, IsIdentifier t → t ≠ ['1'] →
      ReadBack name [start, stop, t] declaration (start ++ ", " ++ stop ++ ", " ++ t) := by
    intro t ht hne
    have hread := readBack_of_isIdentifier hname hstart hstop ht hdeclaration
    rwa [if_neg hne] at hread
  rcases hstep with hstep | ⟨n, -, rfl⟩
  · exact hword hstep hne
  · by_cases hnegative : n < 0
    · rw [signedDecimal, if_pos hnegative]
      exact readBack_of_minus hname hstart hstop (isName_decimal _) hdeclaration
    · rw [signedDecimal, if_neg hnegative] at hne ⊢
      exact hword (isName_decimal _).isIdentifier hne

/-- A loop that counts down to the first index is read back. -/
theorem rangeArguments_countingLoop_down :
    (IsName "i" ∧ IsPart "len(xs) - 1" ∧ IsPart "-1" ∧
    ("let " : Text) ∈ (["", "let ", "int "] : List Text) ∧
      (-2 : Int) ≠ 0 ∧ ("-2" : Text) = signedDecimal (-2) ∧ ("-2" : Text) ≠ "1") ∧
    ReadBack "i" ["-1"] "let " "0, -1" ∧
    ReadBack "i" ["len(xs) - 1", "-1"] "let " "len(xs) - 1, -1" ∧
      ReadBack "i" ["len(xs) - 1", "-1", "1"] "let " "len(xs) - 1, -1" ∧
      ReadBack "i" ["len(xs) - 1", "-1", "-2"] "let " "len(xs) - 1, -1, -2" := by
  have hname : IsName "i" := ⟨by decide, by decide⟩
  have hstart : IsPart "len(xs) - 1" := ⟨by decide, by decide, by decide⟩
  have hstop : IsPart "-1" := ⟨by decide, by decide, by decide⟩
  have hdeclaration : ("let " : Text) ∈ (["", "let ", "int "] : List Text) := by decide
  have hstep : ("-2" : Text) = signedDecimal (-2) := by decide
  have hne : ("-2" : Text) ≠ "1" := by decide
  obtain ⟨hstopOnly, hboth, hone, hall⟩ :=
    rangeArguments_countingLoop hname hstart hstop hdeclaration (.inr ⟨-2, by decide, hstep⟩)
  exact ⟨⟨hname, hstart, hstop, hdeclaration, by decide, hstep, hne⟩, hstopOnly, hboth,
    hone, hall hne⟩

end CodeConverter.Loop
