import CodeConverter.Erasure.Scan
import CodeConverter.Proofs.Pattern.Found
import CodeConverter.Proofs.Program.Name

/-!
# Signatures of functions

A type is a text whose brackets match, angle brackets included and arrows counted as one symbol. The
scans that look for the end of a type, of a parameter and of a parameter list each count brackets of
their own kinds; on such texts they agree. So a function header loses exactly its annotations
(`stripSignatures_function`).
-/

namespace CodeConverter.Erasure

open Text Literal Pattern Program List

/-- The bracket that closes another. -/
def closing? : Char → Option Char
  | '(' => some ')'
  | '[' => some ']'
  | '{' => some '}'
  | '<' => some '>'
  | _ => none

/-- A text without quotes that closes the brackets of the stack and every bracket it opens. Outside
all brackets none of the barred symbols stands. -/
inductive Closed (barred : List Text) : List Char → Text → Prop
  | nil : Closed barred [] []
  | arrow {stack : List Char} {t : Text} : (stack = [] → ['=', '>'] ∉ barred) →
      Closed barred stack t → Closed barred stack ('=' :: '>' :: t)
  | opening {stack : List Char} {c close : Char} {t : Text} : closing? c = some close →
      (stack = [] → [c] ∉ barred) → Closed barred (close :: stack) t → Closed barred stack (c :: t)
  | closing {stack : List Char} {c : Char} {t : Text} :
      isTypeClosing c = true → Closed barred stack t → Closed barred (c :: stack) (c :: t)
  | other {stack : List Char} {c : Char} {t : Text} : isQuote c = false → isTypeOpening c = false →
      isTypeClosing c = false → (stack = [] → [c] ∉ barred) → (c = '=' → t.head? ≠ some '>') →
      Closed barred stack t → Closed barred stack (c :: t)

/-- What ends a type. -/
def typeBars : List Text :=
  [[','], [';'], ['=']]

/-- What ends a result type. -/
def resultBars : List Text :=
  typeBars ++ [['{'], ['=', '>']]

variable {barred : List Text} {stack : List Char} {c close : Char} {t u rest : Text}

theorem closing?_cases (h : closing? c = some close) :
    (c = '(' ∧ close = ')') ∨ (c = '[' ∧ close = ']') ∨ (c = '{' ∧ close = '}') ∨
    (c = '<' ∧ close = '>') := by
  unfold closing? at h
  split at h <;> cases h <;> decide

theorem isTypeClosing_cases (h : isTypeClosing c = true) : c = ')' ∨ c = ']' ∨ c = '}' ∨
    c = '>' := by
  simpa [isTypeClosing, isClosing, or_assoc] using h

namespace Closed

theorem stack_eq_nil (h : Closed barred stack t) (hblank : ∀ c ∈ t, isBlank c = true) :
    stack = [] := by
  induction h with
  | nil => rfl
  | arrow => cases hblank '=' mem_cons_self
  | opening hclose =>
    rcases closing?_cases hclose with ⟨rfl, -⟩ | ⟨rfl, -⟩ | ⟨rfl, -⟩ | ⟨rfl, -⟩ <;>
      cases hblank _ mem_cons_self
  | closing hclosing =>
    rcases isTypeClosing_cases hclosing with rfl | rfl | rfl | rfl <;> cases hblank _ mem_cons_self
  | other _ _ _ _ _ _ ih => exact ih fun c hc => hblank c (mem_cons_of_mem _ hc)

theorem head?_ne (h : Closed barred [] t) : t.head? ≠ some '>' := by
  cases h with
  | nil => simp
  | arrow => simp
  | opening hclose =>
    rintro ⟨⟩
    cases hclose
  | other _ _ hclosing =>
    rintro ⟨⟩
    cases hclosing

theorem append (h : Closed barred stack t) (hu : Closed barred [] u) :
    Closed barred stack (t ++ u) := by
  induction h with
  | nil => exact hu
  | arrow hbar _ ih => exact .arrow hbar ih
  | opening hclose hbar _ ih => exact .opening hclose hbar ih
  | closing hclosing _ ih => exact .closing hclosing ih
  | @other stack c t hquote hopening hclosing hbar harrow _ ih =>
    refine .other hquote hopening hclosing hbar (fun heq => ?_) ih
    cases t with
    | nil => exact hu.head?_ne
    | cons d t => exact harrow heq

/-- Blanks at the end do not matter. -/
theorem of_append_blank (h : Closed barred stack (t ++ u)) (hblank : ∀ c ∈ u, isBlank c = true) :
    Closed barred stack t := by
  have hend : ∀ {stack : List Char}, Closed barred stack u → Closed barred stack [] := by
    intro stack h
    rw [h.stack_eq_nil hblank]
    exact .nil
  generalize htext : t ++ u = text at h
  induction h generalizing t with
  | nil =>
    rw [(append_eq_nil_iff.mp htext).1]
    exact .nil
  | arrow hbar ht ih =>
    rcases append_eq_cons_iff.mp htext with ⟨rfl, rfl⟩ | ⟨t, rfl, htail⟩
    · exact hend (.arrow hbar ht)
    · rcases append_eq_cons_iff.mp htail.symm with ⟨rfl, rfl⟩ | ⟨t, rfl, hrest⟩
      · cases hblank '>' mem_cons_self
      · exact .arrow hbar (ih hrest.symm)
  | opening hclose hbar ht ih =>
    rcases append_eq_cons_iff.mp htext with ⟨rfl, rfl⟩ | ⟨t, rfl, htail⟩
    · exact hend (.opening hclose hbar ht)
    · exact .opening hclose hbar (ih htail.symm)
  | closing hclosing ht ih =>
    rcases append_eq_cons_iff.mp htext with ⟨rfl, rfl⟩ | ⟨t, rfl, htail⟩
    · exact hend (.closing hclosing ht)
    · exact .closing hclosing (ih htail.symm)
  | other hquote hopening hclosing hbar harrow ht ih =>
    rcases append_eq_cons_iff.mp htext with ⟨rfl, rfl⟩ | ⟨t, rfl, rfl⟩
    · exact hend (.other hquote hopening hclosing hbar harrow ht)
    · refine .other hquote hopening hclosing hbar (fun heq hhead => harrow heq ?_) (ih rfl)
      rw [head?_append, hhead]
      rfl

theorem mono {barred' : List Text} (hsub : barred' ⊆ barred) (h : Closed barred stack t) :
    Closed barred' stack t := by
  induction h with
  | nil => exact .nil
  | arrow hbar _ ih => exact .arrow (fun hnil hmem => hbar hnil (hsub hmem)) ih
  | opening hclose hbar _ ih => exact .opening hclose (fun hnil hmem => hbar hnil (hsub hmem)) ih
  | closing hclosing _ ih => exact .closing hclosing ih
  | other hquote hopening hclosing hbar harrow _ ih =>
    exact .other hquote hopening hclosing (fun hnil hmem => hbar hnil (hsub hmem)) harrow ih

theorem of_plain
    (h : ∀ c ∈ t, isQuote c = false ∧ isTypeOpening c = false ∧ isTypeClosing c = false ∧
    [c] ∉ barred) : Closed barred [] t := by
  induction t with
  | nil => exact .nil
  | cons c t ih =>
    rw [forall_mem_cons] at h
    have ht := ih h.2
    exact .other h.1.1 h.1.2.1 h.1.2.2.1 (fun _ => h.1.2.2.2) (fun _ => ht.head?_ne) ht

section

variable (h : Closed barred stack t)

include h

/-- A type ends behind its text. -/
theorem typeLength_eq {isResult : Bool} (htype : typeBars ⊆ barred)
    (hresult : isResult = true → resultBars ⊆ barred) (rest : Text) :
    typeLength isResult stack.length (t ++ rest) = t.length + typeLength isResult 0 rest := by
  induction h with
  | nil => exact (Nat.zero_add _).symm
  | @arrow stack t hbar _ ih =>
    have hgo : ¬ (isResult && decide (stack.length = 0)) = true := by
      rw [Bool.and_eq_true, decide_eq_true_eq, length_eq_zero_iff]
      exact fun h => hbar h.2 (hresult h.1 (by decide))
    rw [cons_append, cons_append, typeLength, if_neg hgo, ih, length_cons, length_cons]
    omega
  | @opening stack c close t hclose hbar _ ih =>
    have hbody : ¬ (decide (c = '{') && decide (stack.length = 0) && isResult) = true := by
      simp only [Bool.and_eq_true, decide_eq_true_eq, length_eq_zero_iff]
      rintro ⟨⟨rfl, hnil⟩, hres⟩
      exact hbar hnil (hresult hres (by decide))
    have hopening : isTypeOpening c = true := by
      rcases closing?_cases hclose with ⟨rfl, -⟩ | ⟨rfl, -⟩ | ⟨rfl, -⟩ | ⟨rfl, -⟩ <;> rfl
    rw [cons_append, typeLength, if_neg hbody, if_pos hopening, ← length_cons, ih, length_cons]
    · omega
    · rintro t rfl
      cases hclose
  | @closing stack c t hclosing _ ih =>
    have hother : c ≠ '{' ∧ isTypeOpening c = false ∧ c ≠ '=' := by
      rcases isTypeClosing_cases hclosing with rfl | rfl | rfl | rfl <;> decide
    rw [cons_append, typeLength, decide_eq_false hother.1, hother.2.1, hclosing, length_cons]
    · simp only [Bool.false_and, Bool.false_eq_true, if_false, if_true, Nat.succ_ne_zero,
        Nat.add_sub_cancel, ih]
      rw [length_cons]
      omega
    · exact fun _ heq => absurd heq hother.2.2
  | @other stack c t _ hopening hclosing hbar harrow ht ih =>
    have hbody : ¬ (decide (c = '{') && decide (stack.length = 0) && isResult) = true := by
      simp only [Bool.and_eq_true, decide_eq_true_eq]
      rintro ⟨⟨rfl, -⟩, -⟩
      cases hopening
    have hstop : ¬ (decide (stack.length = 0) && among "=,;" c) = true := by
      rw [Bool.and_eq_true, decide_eq_true_eq, length_eq_zero_iff, among, contains_iff_mem]
      rintro ⟨hnil, hmem⟩
      refine hbar hnil (htype ?_)
      simp at hmem
      rcases hmem with rfl | rfl | rfl <;> decide
    rw [cons_append, typeLength, if_neg hbody, hopening, if_neg Bool.false_ne_true, hclosing,
      if_neg Bool.false_ne_true, if_neg hstop, ih, length_cons]
    · omega
    · rintro t' rfl heq
      cases t with
      | nil => exact hbar (ht.stack_eq_nil (forall_mem_nil _)) (htype (by decide))
      | cons d t =>
        rw [cons_append] at heq
        exact harrow rfl (by rw [(cons.inj heq).1]; rfl)

/-- A closed text without commas outside its brackets belongs to the part at hand. -/
theorem splitTopLevelFrom_eq (hcomma : [','] ∈ barred) (rest : Text)
    (hrest : rest.head? ≠ some '>') (current : Text) :
    splitTopLevelFrom stack.length none current (t ++ rest) =
      splitTopLevelFrom 0 none (t.reverse ++ current) rest := by
  induction h generalizing current with
  | nil => rfl
  | arrow _ _ ih =>
    rw [cons_append, cons_append, splitTopLevelFrom, ih]
    simp
  | @opening stack c close t hclose _ _ ih =>
    have hother : c ≠ ',' ∧ isTypeOpening c = true ∧ quoteAfter isQuote none c = none ∧
        c ≠ '=' := by
      rcases closing?_cases hclose with ⟨rfl, -⟩ | ⟨rfl, -⟩ | ⟨rfl, -⟩ | ⟨rfl, -⟩ <;> decide
    have hstep := ih (c :: current)
    rw [length_cons, Int.natCast_add] at hstep
    rw [cons_append, splitTopLevelFrom, decide_eq_false hother.1, hother.2.1, hother.2.2.1]
    · exact hstep.trans (by simp)
    · exact fun _ heq => absurd heq hother.2.2.2
  | @closing stack c t hclosing _ ih =>
    have hother : c ≠ ',' ∧ isTypeOpening c = false ∧ quoteAfter isQuote none c = none ∧
        c ≠ '=' := by
      rcases isTypeClosing_cases hclosing with rfl | rfl | rfl | rfl <;> decide
    have hstep := ih (c :: current)
    rw [cons_append, splitTopLevelFrom, decide_eq_false hother.1, hother.2.1, hclosing,
      hother.2.2.1]
    · simp only [Bool.false_and, Bool.false_eq_true, if_false, if_true, length_cons,
        Int.natCast_add]
      rw [show (stack.length : Int) + ((1 : Nat) : Int) + -1 = stack.length by omega]
      exact hstep.trans (by simp)
    · exact fun _ heq => absurd heq hother.2.2.2
  | @other stack c t hquote hopening hclosing hbar harrow ht ih =>
    have hsplit : ¬ (decide (c = ',') && decide ((stack.length : Int) = 0)) = true := by
      rw [Bool.and_eq_true, decide_eq_true_eq, decide_eq_true_eq]
      rintro ⟨rfl, hzero⟩
      exact hbar (length_eq_zero_iff.mp (by omega)) hcomma
    have hafter : quoteAfter isQuote none c = none := by
      rw [quoteAfter, hquote]
      rfl
    have hstep := ih (c :: current)
    rw [cons_append, splitTopLevelFrom, if_neg hsplit, hopening, hclosing, hafter]
    · simp only [Bool.false_eq_true, if_false, Int.add_zero]
      exact hstep.trans (by simp)
    · rintro t' rfl heq
      cases t with
      | nil => exact hrest (by rw [nil_append] at heq; rw [heq]; rfl)
      | cons d t =>
        rw [cons_append] at heq
        exact harrow rfl (by rw [(cons.inj heq).1]; rfl)

/-- The parenthesis that closes a list stands behind its closed text. -/
theorem closingParenthesis_eq (rest : Text) :
    closingParenthesis (1 + stack.count ')') none (t ++ rest) =
      (closingParenthesis 1 none rest).map (· + t.length) := by
  induction h with
  | nil => simp
  | @arrow stack t _ _ ih =>
    have hstep : closingParenthesis (1 + stack.count ')') none ('=' :: '>' :: (t ++ rest)) =
        (closingParenthesis (1 + stack.count ')') none (t ++ rest)).map (· + 2) := by
      simp [closingParenthesis, quoteAfter, isQuote, Function.comp_def]
    rw [cons_append, cons_append, hstep, ih, Option.map_map]
    rfl
  | @opening stack c close t hclose _ _ ih =>
    have hstep : closingParenthesis (1 + stack.count ')') none (c :: (t ++ rest)) =
        (closingParenthesis (1 + (close :: stack).count ')') none (t ++ rest)).map (· + 1) := by
      rcases closing?_cases hclose with ⟨rfl, rfl⟩ | ⟨rfl, rfl⟩ | ⟨rfl, rfl⟩ | ⟨rfl, rfl⟩ <;>
        simp [closingParenthesis, quoteAfter, isQuote, Int.add_assoc]
    rw [cons_append, hstep, ih, Option.map_map]
    rfl
  | @closing stack c t hclosing _ ih =>
    have hstep : closingParenthesis (1 + (c :: stack).count ')') none (c :: (t ++ rest)) =
        (closingParenthesis (1 + stack.count ')') none (t ++ rest)).map (· + 1) := by
      rcases isTypeClosing_cases hclosing with rfl | rfl | rfl | rfl
      · have hdepth : (1 : Int) + ((')' :: stack).count ')' : Nat) = 1 + stack.count ')' + 1 := by
          simp [Int.add_assoc]
        have hinner : ¬ (1 + (stack.count ')' : Int) + 1 = 1) := by omega
        rw [hdepth, closingParenthesis, decide_eq_false hinner, Bool.and_false,
          if_neg Bool.false_ne_true]
        show (closingParenthesis (1 + (stack.count ')' : Int) + 1 + -1) none (t ++ rest)).map _ = _
        rw [Int.add_neg_cancel_right]
      all_goals simp [closingParenthesis, quoteAfter, isQuote]
    rw [cons_append, hstep, ih, Option.map_map]
    rfl
  | @other stack c t hquote hopening hclosing _ _ _ ih =>
    have hparenthesis : c ≠ '(' ∧ c ≠ ')' := by
      constructor <;> rintro rfl
      · cases hopening
      · cases hclosing
    have hstep : closingParenthesis (1 + stack.count ')') none (c :: (t ++ rest)) =
        (closingParenthesis (1 + stack.count ')') none (t ++ rest)).map (· + 1) := by
      simp [closingParenthesis, quoteAfter, hquote, hparenthesis]
    rw [cons_append, hstep, ih, Option.map_map]
    rfl

end

end Closed

/-- A text without symbols of nesting and quotes. -/
def IsPlain (t : Text) : Prop :=
  ∀ c ∈ t, isQuote c = false ∧ isTypeOpening c = false ∧ isTypeClosing c = false ∧ c ≠ ',' ∧ c ≠ ':'

instance (t : Text) : Decidable (IsPlain t) :=
  inferInstanceAs (Decidable (∀ c ∈ t, _))

theorem isPlain_of_forall {set : Char → Bool} (hset : ∀ d ∈ "\"'`([{<)]}>,:".toList, set d = false)
    (h : ∀ c ∈ t, set c = true) : IsPlain t := by
  intro c hc
  have hnot : ∀ d ∈ "\"'`([{<)]}>,:".toList, c ≠ d := by
    rintro d hd rfl
    have hin := h c hc
    rw [hset c hd] at hin
    cases hin
  simp at hnot
  simp [isQuote, isTypeOpening, isOpening, isTypeClosing, isClosing, hnot]

theorem isPlain_of_isName (h : IsName t) : IsPlain t :=
  isPlain_of_forall (by decide) h.2

/-- A parameter of a function: its name, whether it may be left out, its type and its default. -/
structure Formal where
  name : Text
  isOptional : Bool
  type : Option Text
  default : Option Text

namespace Formal

/-- The mark of a parameter that may be left out. -/
def mark (p : Formal) : Text :=
  if p.isOptional then "?" else ""

/-- The annotation of a parameter. -/
def annotation (p : Formal) : Text :=
  p.type.elim [] (": " ++ ·)

/-- The default of a parameter. -/
def value (p : Formal) : Text :=
  p.default.elim [] (" = " ++ ·)

/-- The parameter as it is written with its type. -/
def text (p : Formal) : Text :=
  p.name ++ p.mark ++ p.annotation ++ p.value

/-- The parameter without its type. -/
def erased (p : Formal) : Text :=
  p.name ++ p.value

/-- The parts of a parameter are what their places call for. A mark without a type ends it. -/
structure Fits (p : Formal) : Prop where
  name : IsName p.name
  type : ∀ type ∈ p.type, Closed typeBars [] type
  default : ∀ d ∈ p.default, d ≠ [] ∧ strip d = d ∧ IsPlain d
  optional : p.isOptional = true → p.type = none → p.default = none

variable {p : Formal}

theorem isPlain_mark (p : Formal) : IsPlain p.mark := by
  unfold mark
  split <;> decide

section

variable (h : p.Fits)

include h

theorem Fits.isPlain_start : IsPlain (p.name ++ p.mark) :=
  forall_mem_append.mpr ⟨isPlain_of_isName h.name, p.isPlain_mark⟩

theorem Fits.isPlain_value : IsPlain p.value := by
  unfold value
  cases hd : p.default with
  | none => exact forall_mem_nil _
  | some d => exact forall_mem_append.mpr ⟨by decide, (h.default d hd).2.2⟩

theorem Fits.closed_annotation : Closed [[',']] [] p.annotation := by
  unfold annotation
  cases htype : p.type with
  | none => exact .nil
  | some type =>
    have htype : Closed [[',']] [] type := (h.type type htype).mono (by decide)
    exact .append (.of_plain (by decide)) htype

theorem Fits.closed : Closed [[',']] [] p.text := by
  have hplain : ∀ {t : Text}, IsPlain t → Closed [[',']] [] t := by
    intro t ht
    refine .of_plain fun c hc => ?_
    obtain ⟨hquote, hopening, hclosing, hcomma, -⟩ := ht c hc
    exact ⟨hquote, hopening, hclosing, by simpa using hcomma⟩
  exact ((hplain h.isPlain_start).append h.closed_annotation).append (hplain h.isPlain_value)

theorem Fits.withoutMarks_start : withoutMarks (p.name ++ p.mark) = p.name := by
  obtain ⟨front, c, hname⟩ := (eq_nil_or_concat' p.name).resolve_left h.name.1
  have hc : isWord c = true := h.name.2 c (by simp [hname])
  have hkept : withoutMarks p.name = p.name := by
    refine dropEndWhile_of_last (x := c) (by simp [hname]) (decide_eq_false ?_)
    rintro rfl
    cases hc
  unfold mark
  split
  · exact (dropEndWhile_concat p.name rfl).trans hkept
  · rwa [show ("" : Text) = [] from rfl, append_nil]

end

end Formal

theorem stripParameterFrom_plain {whole : Text} (h : IsPlain t) (heq : '=' ∉ t) (seen rest : Text) :
    stripParameterFrom whole 0 seen (t ++ rest) = stripParameterFrom whole 0 (t.reverse ++ seen)
    rest := by
  induction t generalizing seen with
  | nil => rfl
  | cons c t ih =>
    obtain ⟨⟨-, hopening, hclosing, -, hcolon⟩, ht⟩ := forall_mem_cons.mp h
    rw [mem_cons, not_or] at heq
    rw [cons_append, stripParameterFrom, hopening, if_neg Bool.false_ne_true, hclosing,
      if_neg Bool.false_ne_true,
      decide_eq_false (Ne.symm heq.1), Bool.false_and, if_neg Bool.false_ne_true,
      decide_eq_false hcolon, Bool.false_and, if_neg Bool.false_ne_true, ih ht heq.2]
    simp

theorem stripParameterFrom_colon (whole seen rest : Text) :
    stripParameterFrom whole 0 seen (':' :: rest) =
      if (strip (afterType rest)).isEmpty then withoutMarks (stripEnd seen.reverse)
      else withoutMarks (stripEnd seen.reverse) ++ " " ++ strip (afterType rest) := rfl

theorem afterType_append (h : Closed typeBars [] t) (rest : Text) :
    afterType (t ++ rest) = afterType rest := by
  have hlength : typeLength false 0 (t ++ rest) = t.length + typeLength false 0 rest :=
    h.typeLength_eq (Subset.refl _) (fun hresult => Bool.noConfusion hresult) rest
  rw [afterType, hlength, drop_length_add_append]
  rfl

theorem strip_append_stripEnd (ht : strip t = t) (hne : t ≠ []) (u : Text) :
    strip (t ++ u) = t ++ stripEnd u :=
  strip_around ht hne [] u

theorem stripEnd_eq_self (h : strip t = t) : stripEnd t = t := by
  rcases eq_nil_or_concat' t with rfl | ⟨front, c, rfl⟩
  · rfl
  · exact dropEndWhile_of_last getLast?_concat
      ((strip_eq_self_iff.mp h).2 c (by rw [getLast?_concat]; rfl))

namespace Formal

variable {p : Formal}

theorem Fits.strip_text (h : p.Fits) : strip (p.name ++ p.mark) = p.name ++ p.mark ∧
    strip (p.name ++ p.mark ++ ":") = p.name ++ p.mark ++ ":" := by
  have hall : ∀ c ∈ p.name ++ p.mark ++ ":", isBlank c = false := by
    have hmark : ∀ c ∈ p.mark, isBlank c = false := by
      unfold mark
      split <;> decide
    simp only [forall_mem_append]
    exact ⟨⟨fun c hc => isBlank_eq_false_of_isWord (h.name.2 c hc), hmark⟩, by decide⟩
  refine ⟨strip_eq_self_iff.mpr ⟨fun c hc => hall c ?_, fun c hc => hall c ?_⟩,
    strip_eq_self_iff.mpr ⟨fun c hc => hall c (mem_of_mem_head? hc), fun c hc =>
    hall c (mem_of_mem_getLast? hc)⟩⟩
  · exact mem_append_left _ (mem_of_mem_head? hc)
  · exact mem_append_left _ (mem_of_mem_getLast? hc)

theorem Fits.stripEnd_value (h : p.Fits) (front : Text) (hd : p.default ≠ none) :
    stripEnd (front ++ p.value) = front ++ p.value := by
  obtain ⟨d, hd⟩ := Option.ne_none_iff_exists'.mp hd
  obtain ⟨hne, hstrip, -⟩ := h.default d hd
  obtain ⟨rest, c, rfl⟩ := (eq_nil_or_concat' d).resolve_left hne
  have hc := (strip_eq_self_iff.mp hstrip).2 c (by simp)
  refine dropEndWhile_of_last ?_ hc
  rw [value, hd, Option.elim_some, ← append_assoc, ← append_assoc, getLast?_concat]

/-- A parameter loses its mark and its type. -/
theorem Fits.stripParameter_eq (h : p.Fits) : stripParameter p.text = p.erased := by
  obtain ⟨hstart, hcolon⟩ := h.strip_text
  have hne : p.name ++ p.mark ≠ [] := fun hnil => h.name.1 (append_eq_nil_iff.mp hnil).1
  have hequals : '=' ∉ p.name ++ p.mark := by
    rw [mem_append, not_or, mark]
    refine ⟨h.name.not_mem rfl, ?_⟩
    split <;> decide
  cases htype : p.type with
  | none =>
    have htext : p.text = p.name ++ p.mark ++ p.value := by
      rw [text, annotation, htype, Option.elim_none, append_nil]
    rw [stripParameter, htext, strip_append_stripEnd hstart hne]
    cases hd : p.default with
    | none =>
      have hvalue : p.value = [] := by rw [value, hd, Option.elim_none]
      rw [hvalue, show stripEnd [] = [] from rfl, stripParameterFrom_plain h.isPlain_start hequals,
        stripParameterFrom, append_nil, h.withoutMarks_start, erased, hvalue, append_nil]
    | some d =>
      -- Without a type, a parameter with a default has no mark, and it is kept as it is.
      have hmark : p.mark = [] := by
        rw [mark, if_neg]
        · rfl
        · intro hoptional
          rw [h.optional hoptional htype] at hd
          cases hd
      have hkeep := h.stripEnd_value [] (by simp [hd])
      rw [nil_append] at hkeep
      rw [hkeep, hmark, append_nil]
      rw [hmark, append_nil] at hequals
      rw [stripParameterFrom_plain (isPlain_of_isName h.name) hequals, erased, value, hd]
      rfl
  | some type =>
    have htext : p.text = p.name ++ p.mark ++ ":" ++ (' ' :: type ++ p.value) := by
      rw [text, annotation, htype]
      simp
    have hclosed : Closed typeBars [] (' ' :: type) :=
      .other rfl rfl rfl (fun _ => by decide) (fun heq => absurd heq (by decide))
        (h.type type htype)
    have hrun :
        stripParameter p.text = if (strip (afterType (stripEnd (' ' :: type ++ p.value)))).isEmpty
        then p.name
        else p.name ++ " " ++ strip (afterType (stripEnd (' ' :: type ++ p.value))) := by
      rw [stripParameter, htext, strip_append_stripEnd hcolon (by simp),
        append_assoc (p.name ++ p.mark), stripParameterFrom_plain h.isPlain_start hequals]
      refine (stripParameterFrom_colon _ _ (stripEnd (' ' :: type ++ p.value))).trans ?_
      rw [append_nil, reverse_reverse, stripEnd_eq_self hstart, h.withoutMarks_start]
    cases hd : p.default with
    | none =>
      have hvalue : p.value = [] := by rw [value, hd, Option.elim_none]
      obtain ⟨gap, hgap, hblank⟩ := dropEndWhile_parts isBlank (' ' :: type)
      have hafter : afterType (stripEnd (' ' :: type)) = [] := by
        have happend := afterType_append (.of_append_blank (hgap ▸ hclosed) hblank) []
        rwa [append_nil] at happend
      rw [hrun, hvalue, append_nil, hafter, erased, hvalue, append_nil]
      rfl
    | some d =>
      have hvalue : p.value = ' ' :: "= " ++ d := by rw [value, hd]; rfl
      obtain ⟨hdne, hdstrip, -⟩ := h.default d hd
      have hafter : afterType (' ' :: type ++ p.value) = "= " ++ d := by
        rw [afterType_append hclosed, hvalue]
        rfl
      have hstrip : strip ("= " ++ d) = "= " ++ d := by
        refine strip_eq_self_iff.mpr ⟨fun c hc => ?_, fun c hc =>
          (strip_eq_self_iff.mp hdstrip).2 c ?_⟩
        · obtain rfl := Option.some.inj hc
          decide
        · rwa [getLast?_append_of_ne_nil _ hdne] at hc
      rw [hrun, h.stripEnd_value _ (by simp [hd]), hafter, hstrip, erased, hvalue]
      simp

end Formal

variable {ts : List Text} {formals : List Formal} {result : Option Text} {head f : Text}

/-- The parts of a list are the closed texts it was joined from. -/
theorem splitTopLevel_join (h : ∀ u ∈ t :: ts, Closed [[',']] [] u ∧ strip u ≠ []) :
    splitTopLevel (join ", " (t :: ts)) = t :: ts.map (' ' :: ·) := by
  induction ts generalizing t with
  | nil =>
    obtain ⟨hclosed, hne⟩ := h t mem_cons_self
    have hreverse : (strip t.reverse).isEmpty = false := by
      rw [isEmpty_eq_false_iff, Ne, strip_eq_nil_iff]
      exact fun hblank => hne (strip_eq_nil_iff.mpr fun c hc => hblank c (mem_reverse.mpr hc))
    have hsplit := hclosed.splitTopLevelFrom_eq mem_cons_self [] (by simp) []
    rw [append_nil, append_nil] at hsplit
    rw [join_singleton, splitTopLevel]
    refine hsplit.trans ?_
    rw [splitTopLevelFrom, hreverse, if_neg Bool.false_ne_true, reverse_reverse]
    rfl
  | cons u ts ih =>
    rw [forall_mem_cons, forall_mem_cons] at h
    obtain ⟨⟨hclosed, -⟩, ⟨hu, hune⟩, hts⟩ := h
    have hlead : Closed [[',']] [] (' ' :: u) :=
      .other rfl rfl rfl (fun _ => by decide) (fun heq => absurd heq (by decide)) hu
    have hnext := ih (forall_mem_cons.mpr ⟨⟨hlead, hune⟩, hts⟩)
    have hjoin : join ", " ((' ' :: u) :: ts) = ' ' :: join ", " (u :: ts) := by
      cases ts with
      | nil => simp
      | cons v ts => rw [join_cons_cons, join_cons_cons]; rfl
    rw [hjoin] at hnext
    rw [join_cons_cons, splitTopLevel]
    refine (hclosed.splitTopLevelFrom_eq mem_cons_self (", " ++ join ", " (u :: ts)) (by simp)
      []).trans ?_
    rw [append_nil]
    show t.reverse.reverse :: splitTopLevel (' ' :: join ", " (u :: ts)) = _
    rw [reverse_reverse, hnext, map_cons]

theorem Closed.join (h : ∀ t ∈ ts, Closed [] [] t) : Closed [] [] (join ", " ts) := by
  induction ts with
  | nil => exact .nil
  | cons t ts ih =>
    obtain ⟨ht, hts⟩ := forall_mem_cons.mp h
    cases ts with
    | nil => rwa [join_singleton]
    | cons u ts =>
      rw [join_cons_cons]
      exact ht.append (.append (.of_plain (by decide)) (ih hts))

/-- Each parameter is erased on its own. -/
theorem stripParameters_join (h : ∀ p ∈ formals, p.Fits) :
    stripParameters (join ", " (formals.map Formal.text)) =
    join ", " (formals.map Formal.erased) := by
  cases formals with
  | nil => rfl
  | cons p formals =>
    have hparts : ∀ t ∈ p.text :: formals.map Formal.text, Closed [[',']] [] t ∧ strip t ≠ [] := by
      rw [← map_cons]
      intro t ht
      obtain ⟨q, hq, rfl⟩ := mem_map.mp ht
      refine ⟨(h q hq).closed, fun hblank => ?_⟩
      obtain ⟨c, rest, hname⟩ := exists_cons_of_ne_nil (h q hq).name.1
      have hc := strip_eq_nil_iff.mp hblank c (by simp [Formal.text, hname])
      rw [isBlank_eq_false_of_isWord ((h q hq).name.2 c (by simp [hname]))] at hc
      cases hc
    rw [stripParameters, map_cons, splitTopLevel_join hparts, map_cons, map_map, map_map, map_cons]
    have hall : ∀ q ∈ p :: formals, stripParameter q.text = q.erased :=
      fun q hq => (h q hq).stripParameter_eq
    rw [forall_mem_cons] at hall
    rw [hall.1]
    refine congrArg (fun rest => Text.join ", " (p.erased :: rest)) (map_congr_left fun q hq => ?_)
    exact hall.2 q hq

theorem cutParenthesis_of_not_mem (h : '(' ∉ t) (rest : Text) :
    cutParenthesis (t ++ '(' :: rest) = some (t ++ ['('], rest) := by
  have hall : ∀ c ∈ t, decide (c ≠ '(') = true :=
    fun c hc => decide_eq_true (ne_of_mem_of_not_mem hc h)
  rw [cutParenthesis, dropWhile_append_of_pos hall, takeWhile_append_of_pos hall]
  simp

theorem cutParenthesis_eq_none (h : '(' ∉ t) : cutParenthesis t = none := by
  have hall : ∀ c ∈ t, decide (c ≠ '(') = true :=
    fun c hc => decide_eq_true (ne_of_mem_of_not_mem hc h)
  rw [cutParenthesis, dropWhile_eq_nil_iff.mpr hall]

/-- A result type as it is written. -/
def resultText (result : Option Text) : Text :=
  result.elim [] (": " ++ ·)

theorem cutResult_resultText (h : ∀ r ∈ result, Closed resultBars [] r) :
    (cutResult (resultText result ++ " \x7b")).2 = "\x7b" := by
  cases result with
  | none => rfl
  | some r =>
    have hr : Closed resultBars [] (' ' :: r) :=
      .other rfl rfl rfl (fun _ => by decide) (fun heq => absurd heq (by decide)) (h r rfl)
    have hclosed : Closed resultBars [] (' ' :: r ++ [' ']) := hr.append (.of_plain (by decide))
    have hlength : typeLength true 0 (' ' :: r ++ [' '] ++ ['{']) = (' ' :: r ++ [' ']).length :=
      hclosed.typeLength_eq (by decide) (fun _ => Subset.refl _) ['{']
    have hdrop :
        (' ' :: r ++ [' '] ++ ['{']).drop (typeLength true 0 (' ' :: r ++ [' '] ++ ['{'])) =
        ['{'] := by
      rw [hlength, drop_left]
    rw [append_assoc] at hdrop
    exact congrArg stripStart hdrop

/-- The words of control structures. -/
def controlWords : List String :=
  ["if", "while", "for", "switch", "catch"]

/-- The word characters at the end of a text. -/
def lastWord (t : Text) : Text :=
  (t.reverse.takeWhile isWord).reverse

theorem lastWord_append (h : ∀ c ∈ t.getLast?, isWord c = false) (hu : ∀ c ∈ u, isWord c = true) :
    lastWord (t ++ u) = u := by
  have hstop : t.reverse.takeWhile isWord = [] := by
    rcases eq_nil_or_concat' t with rfl | ⟨front, c, rfl⟩
    · rfl
    · have hc := h c (by rw [getLast?_concat]; rfl)
      rw [reverse_append, reverse_singleton, singleton_append,
        takeWhile_cons_of_neg (by rw [hc]; exact Bool.false_ne_true)]
  rw [lastWord, reverse_append, takeWhile_append_of_pos fun c hc => hu c (mem_reverse.mp hc), hstop,
    append_nil, reverse_reverse]

/-- The last word in front of the parenthesis of a control structure. -/
theorem lastWord_of_controlHead (hlast : ∀ c ∈ t.getLast?, isBlank c = false)
    (h : controlHead.occursIn t = true) : ∃ word ∈ controlWords, lastWord t = word.toList := by
  obtain ⟨m, hm⟩ := Option.isSome_iff_exists.mp h
  have hof := of_search hm
  obtain ⟨front, hfront, -, hbefore⟩ := hof.within
  have htext : t = front ++ (m.whole ++ m.last.ahead) := by rw [← hof.ahead_eq, hfront]
  have hreads := hof.reads
  simp only [controlHead, append_eq_seq, keyword, oneOf, map_cons, map_nil, blanks, many,
    reads_seq_iff, reads_alt_iff,
    reads_literal_iff, reads_wordEdge_iff, reads_chars_iff, reads_atEnd_iff] at hreads
  obtain ⟨_, _, _, hwhole,
      ⟨_, _, gap, rfl, ⟨_, _, piece, rfl, ⟨rfl, rfl, hedge⟩, hkeyword⟩, hgap, -⟩, rfl, rfl, hend⟩ :=
      hreads
  obtain ⟨word, hword, rfl⟩ : ∃ word ∈ controlWords, piece = word.toList := by
    rcases hkeyword with ⟨rfl, -⟩ | ⟨rfl, -⟩ | ⟨rfl, -⟩ | ⟨rfl, -⟩ | ⟨rfl, -⟩ <;>
      exact ⟨_, by decide, rfl⟩
  have hblank : ∀ c ∈ gap ++ m.last.ahead, isBlank c = true := by
    refine forall_mem_append.mpr ⟨hgap, ?_⟩
    have hlast : m.last.ahead = [] ∨ m.last.ahead = ['\n'] := by simpa [State.isEnd] using hend
    rcases hlast with hnil | hbreak
    · rw [hnil]
      exact forall_mem_nil _
    · rw [hbreak]
      decide
  have htext : t = front ++ (word.toList ++ (gap ++ m.last.ahead)) := by
    rw [htext, hwhole]
    simp
  have hnil : gap ++ m.last.ahead = [] := by
    rcases eq_nil_or_concat' (gap ++ m.last.ahead) with hnil | ⟨rest, c, hconcat⟩
    · exact hnil
    · have hc := hlast c (by rw [htext, hconcat]; simp)
      rw [hblank c (by rw [hconcat]; simp)] at hc
      cases hc
  have hletters : ∀ c ∈ word.toList, isWord c = true := by
    have hall : ∀ word ∈ controlWords, ∀ c ∈ word.toList, isWord c = true := by decide
    exact hall word hword
  obtain ⟨c, rest, hcons⟩ : ∃ c rest, word.toList = c :: rest := by
    have hall : ∀ word ∈ controlWords, word.toList ≠ [] := by decide
    exact exists_cons_of_ne_nil (hall word hword)
  refine ⟨word, hword, ?_⟩
  rw [htext, hnil, append_nil]
  refine lastWord_append (fun d hd => ?_) hletters
  have hahead : m.first.ahead = c :: (rest ++ []) := by
    rw [hof.ahead_eq, hwhole, nil_append, append_nil, append_assoc, hnil, hcons]
    rfl
  have hfirst := hletters c (by rw [hcons]; exact mem_cons_self)
  rw [State.isWordEdge, hahead, hbefore, Option.mem_def.mp hd] at hedge
  simpa [hfirst] using hedge

theorem lastWord_of_append_space (front : Text) : lastWord (front ++ (' ' :: t)) = lastWord t := by
  rw [lastWord, reverse_append, reverse_cons, append_assoc, takeWhile_append]
  split_ifs with hall
  · have hpart : t.reverse.takeWhile isWord <+: t.reverse := takeWhile_prefix isWord
    have hkept : t.reverse.takeWhile isWord = t.reverse := hpart.eq_of_length hall
    rw [lastWord, hkept, singleton_append, takeWhile_cons_of_neg (by decide), append_nil]
  · rfl

theorem stripAfter_eq {after : Text} (hrest : (cutResult after).2 = "\x7b")
    (hhead : controlHead.occursIn (stripEnd head.dropLast) = false) (parameters : Text) :
    stripAfter head (parameters ++ ')' :: after) parameters.length = stripParameters parameters ++
    ") \x7b" := by
  have hdrop : (parameters ++ ')' :: after).drop (parameters.length + 1) = after := by
    rw [drop_length_add_append]
    rfl
  rw [stripAfter, hdrop]
  rcases hcut : cutResult after with ⟨result, rest⟩
  rw [hcut] at hrest
  obtain rfl : rest = "\x7b" := hrest
  show (if (true && !controlHead.occursIn (stripEnd head.dropLast)) = true then _ else _) = _
  rw [hhead, if_pos (by decide), take_left, append_assoc]
  refine dropEndWhile_of_last ?_ (show isBlank '{' = false by decide)
  rw [show (") " ++ "\x7b" : Text) = [')', ' '] ++ ['{'] from rfl, ← append_assoc, getLast?_concat]

theorem stripSignaturesFrom_of_last {n close : Nat} {tail : Text}
    (hclose : closingParenthesis 1 none tail = some close)
    (hcut : cutParenthesis (stripAfter head tail close) = none) :
    stripSignaturesFrom (n + 1) head tail = head ++ stripAfter head tail close := by
  rw [stripSignaturesFrom, hclose]
  simp only [hcut]

/-- The name of a function is no word of control. -/
theorem controlHead_function (hname : f ≠ [] ∧ ∀ c ∈ f, nameChar c = true)
    (hcontrol : ∀ word ∈ controlWords, lastWord f ≠ word.toList) :
    controlHead.occursIn (stripEnd ("function " ++ f ++ ['(']).dropLast) = false := by
  have hlast : ∀ c ∈ ("function " ++ f : Text).getLast?, isBlank c = false := by
    intro c hc
    rw [getLast?_append_of_ne_nil _ hname.1] at hc
    have hchar := hname.2 c (mem_of_mem_getLast? hc)
    rw [← Bool.not_eq_true]
    intro hblank
    simp [nameChar, wordOr, isWord_eq_false_of_isBlank hblank] at hchar
    subst hchar
    cases hblank
  have hstrip : stripEnd ("function " ++ f) = "function " ++ f := by
    obtain ⟨front, c, rfl⟩ := (eq_nil_or_concat' f).resolve_left hname.1
    rw [← append_assoc] at hlast ⊢
    exact dropEndWhile_of_last getLast?_concat (hlast c (by rw [getLast?_concat]; rfl))
  rw [dropLast_concat, hstrip, ← Bool.not_eq_true]
  intro hfound
  obtain ⟨word, hword, hlastWord⟩ := lastWord_of_controlHead hlast hfound
  exact hcontrol word hword ((lastWord_of_append_space "function").symm.trans hlastWord)

theorem not_mem_erased (hformals : ∀ p ∈ formals, p.Fits) :
    '(' ∉ (join ", " (formals.map Formal.erased) ++ ") \x7b" : Text) := by
  rw [mem_append, not_or]
  refine ⟨fun hmem => ?_, by decide⟩
  rcases mem_join hmem with hsep | ⟨_, hpiece, hmem⟩
  · revert hsep
    decide
  · obtain ⟨p, hp, rfl⟩ := mem_map.mp hpiece
    have hplain :=
      forall_mem_append.mpr ⟨isPlain_of_isName (hformals p hp).name, (hformals p hp).isPlain_value⟩
    exact absurd (hplain _ hmem).2.1 (by decide)

/-- A header of a function, with the types of its parameters and of its result, loses exactly these
and the marks of its parameters, unless the word its name ends in is that of a control structure. -/
theorem stripSignatures_function {f : Text} {formals : List Formal} {result : Option Text}
    (hname : f ≠ [] ∧ ∀ c ∈ f, nameChar c = true)
    (hcontrol : ∀ word ∈ controlWords, lastWord f ≠ word.toList)
    (hformals : ∀ p ∈ formals, p.Fits) (hresult : ∀ r ∈ result, Closed resultBars [] r) :
    stripSignatures ("function " ++ f ++ "(" ++ join ", " (formals.map Formal.text) ++ ")" ++
    resultText result ++ " \x7b") =
      "function " ++ f ++ "(" ++ join ", " (formals.map Formal.erased) ++ ") \x7b" := by
  have hopen : '(' ∉ ("function " ++ f : Text) := by
    rw [mem_append, not_or]
    exact ⟨by decide, fun hmem => absurd (hname.2 _ hmem) (by decide)⟩
  have hclosed : Closed [] [] (join ", " (formals.map Formal.text)) := by
    refine .join fun t ht => ?_
    obtain ⟨p, hp, rfl⟩ := mem_map.mp ht
    exact (hformals p hp).closed.mono (nil_subset _)
  have hclose : closingParenthesis 1 none (join ", " (formals.map Formal.text) ++ ')' ::
      (resultText result ++ " \x7b")) = some (join ", " (formals.map Formal.text)).length := by
    refine (hclosed.closingParenthesis_eq _).trans ?_
    show some (0 + (join ", " (formals.map Formal.text)).length) = _
    rw [Nat.zero_add]
  have htext :
      ("function " ++ f ++ "(" ++ join ", " (formals.map Formal.text) ++ ")" ++ resultText result ++
      " \x7b" : Text) =
      "function " ++ f ++ '(' ::
      (join ", " (formals.map Formal.text) ++ ')' :: (resultText result ++ " \x7b")) := by
    simp
  obtain ⟨n, hcount⟩ : ∃ n, ("function " ++ f ++ '(' :: (join ", " (formals.map Formal.text) ++
      ')' :: (resultText result ++ " \x7b")) : Text).count '(' = n + 1 :=
    Nat.exists_eq_succ_of_ne_zero (Nat.ne_of_gt (count_pos_iff.mpr (by simp)))
  rw [htext, stripSignatures, cutParenthesis_of_not_mem hopen]
  have hafter :=
    stripAfter_eq (cutResult_resultText hresult) (controlHead_function hname hcontrol)
      (join ", " (formals.map Formal.text))
  rw [stripParameters_join hformals] at hafter
  show stripSignaturesFrom _ _ _ = _
  rw [hcount,
    stripSignaturesFrom_of_last hclose
    (by rw [hafter, cutParenthesis_eq_none (not_mem_erased hformals)]), hafter]
  simp

/-- A generic type, an optional parameter with a default, and a result. -/
theorem stripSignatures_function_generic :
    stripSignatures "function $f(a: b<c>, d?: e = 1): () \x7b" = "function $f(a, d = 1) \x7b" := by
  have ha : Formal.Fits ⟨"a", false, some "b<c>", none⟩ := by
    refine ⟨by decide, fun type htype => ?_, fun d hd => (by cases hd), fun h => (by cases h)⟩
    obtain rfl := Option.some.inj htype
    exact .append (.of_plain (t := ['b']) (by decide)) (.opening rfl (fun _ => by decide)
      (.other rfl rfl rfl (fun h => by cases h) (fun h => absurd h (by decide))
      (.closing rfl .nil)))
  have hd : Formal.Fits ⟨"d", true, some "e", some "1"⟩ := by
    refine ⟨by decide, fun type htype => ?_, fun d hd => ?_, fun _ h => by cases h⟩
    · obtain rfl := Option.some.inj htype
      exact .of_plain (by decide)
    · obtain rfl := Option.some.inj hd
      decide
  have hresult : ∀ r ∈ some ("()" : Text), Closed resultBars [] r := by
    intro r hr
    obtain rfl := Option.some.inj hr
    exact .opening rfl (fun _ => by decide) (.closing rfl .nil)
  have hstrip := stripSignatures_function (f := "$f") (by decide) (by decide)
    (forall_mem_cons.mpr ⟨ha, forall_mem_singleton.mpr hd⟩) hresult
  refine (congrArg stripSignatures ?_).trans (hstrip.trans ?_) <;> decide

/-- The name of a function may end in the word of a control structure. Its header keeps its types
then. -/
theorem stripSignatures_keeps_dollar :
    stripSignatures "function $if(a: number): void \x7b" = "function $if(a: number): void \x7b" ∧
      "$if".toList ∉ controlWords.map String.toList := by
  decide +kernel

end CodeConverter.Erasure
