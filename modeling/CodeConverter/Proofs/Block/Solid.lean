import CodeConverter.Proofs.Block.Layout
import CodeConverter.Proofs.Expression.Total

/-!
# Plain code

Code without quotes, braces, slashes, line feeds and null characters. Splitting keeps the calls and
headers made of it whole, a brace behind such a header opens a block, and its expressions can be
respelled.
-/

namespace CodeConverter.Block

open Text Literal Pattern Program List

/-- A character of plain code. -/
def isPlain (c : Char) : Bool :=
  isPassed c && c ≠ '\n' && c ≠ '\x00'

/-- Code made of plain characters. -/
def Plain (t : Text) : Prop :=
  ∀ c ∈ t, isPlain c = true

variable {t u : Text} {entries : List Text}

theorem Plain.append (ht : Plain t) (hu : Plain u) : Plain (t ++ u) :=
  forall_mem_append.mpr ⟨ht, hu⟩

theorem Plain.cons {c : Char} (hc : isPlain c = true) (ht : Plain t) : Plain (c :: t) :=
  Plain.append (t := [c]) (by simpa [Plain] using hc) ht

theorem Plain.fixed (h : t.all isPlain = true) : Plain t := all_eq_true.mp h

theorem Plain.not_mem (h : Plain t) {d : Char} (hd : isPlain d = false) : d ∉ t := by
  intro hmem
  rw [h d hmem] at hd
  cases hd

theorem plain_of_isIdentifier (h : IsIdentifier t) : Plain t := by
  intro c hc
  have hother : ∀ d, (isWord d || isMark d) = false → c ≠ d := fun d hd => h.ne hc hd
  simp [isPlain, isPassed, isQuote, hother '\x27' rfl, hother '\x22' rfl, hother '`' rfl,
    hother '{' rfl, hother '}' rfl, hother '/' rfl, hother '\n' rfl,
    hother '\x00' rfl]

theorem plain_join {sep : Text} (hsep : Plain sep) (h : ∀ entry ∈ entries, Plain entry) :
    Plain (join sep entries) := by
  intro c hc
  rcases mem_join hc with hin | ⟨entry, hentry, hin⟩
  · exact hsep c hin
  · exact h entry hentry c hin

theorem Plain.moderate (h : Plain t) : Moderate t where
  null := h.not_mem rfl
  quotes := by
    have hquotes : t.countP isQuote = 0 := by
      refine countP_eq_zero.mpr fun c hc hquote => ?_
      have hplain := h c hc
      rw [isPlain, isPassed, hquote] at hplain
      cases hplain
    have hbraces : t.count '{' = 0 := count_eq_zero.mpr (h.not_mem rfl)
    omega

theorem Plain.solid (h : Plain t) (first last : Char) (hfirst : t.head? = some first)
    (hlast : t.getLast? = some last)
    (hhead : isBlank first = false ∧ isGlue first = false) (htail : isBlank last = false) :
    Solid t where
  nonempty := by
    rintro rfl
    cases hfirst
  stripped := by
    refine strip_eq_self_iff.mpr ⟨fun c hc => ?_, fun c hc => ?_⟩
    · obtain rfl : first = c := Option.some.inj (hfirst.symm.trans hc)
      exact hhead.1
    · obtain rfl : last = c := Option.some.inj (hlast.symm.trans hc)
      exact htail
  passed := by
    intro c hc
    have hplain := h c hc
    simp only [isPlain, Bool.and_eq_true] at hplain
    exact hplain.1.1
  apart := by
    intro c hc
    obtain rfl : first = c := Option.some.inj (hfirst.symm.trans hc)
    exact hhead.2

theorem isHeader_parenthesis (t : Text) : isHeader (t ++ ")") = true := by
  have hmatch :
      (header.matchAt (t ++ ")") ((State.start (t ++ ")")).past t ")")).isSome = true := rfl
  exact isSome_searchFrom rfl hmatch

section Statements

variable {name arguments condition : Text}

theorem plain_callText (hname : IsIdentifier name) (harguments : Plain arguments) :
    Plain (callText name arguments) :=
  (plain_of_isIdentifier hname).append (.cons rfl (harguments.append (.fixed rfl)))

theorem plain_conditionText {start : String} (hstart : start.toList.all isPlain = true)
    (hcondition : Plain condition) : Plain (conditionText start condition) :=
  (Plain.fixed hstart).append (.cons rfl (.cons rfl (hcondition.append (.fixed rfl))))

theorem isGlue_eq_false (h : IsIdentifier name) {c : Char} (hc : c ∈ name) : isGlue c = false := by
  simp [isGlue, h.ne hc (d := ')') rfl, h.ne hc (d := ';') rfl, h.ne hc (d := ',') rfl]

theorem solid_callText (hname : IsIdentifier name) (harguments : Plain arguments) :
    Solid (callText name arguments ++ ";") := by
  obtain ⟨c, rest, rfl⟩ := exists_cons_of_ne_nil hname.1
  exact ((plain_callText hname harguments).append (.fixed rfl)).solid c ';' rfl getLast?_concat
    ⟨hname.not_blank c mem_cons_self, isGlue_eq_false hname mem_cons_self⟩ rfl

theorem conditionText_eq (start : String) (condition : Text) :
    conditionText start condition = (start.toList ++ (' ' :: '(' :: condition)) ++ ")" := by
  simp [conditionText]

theorem proper_conditionText (start : String) (hstart : start.toList.all isPlain = true)
    {first : Char}
    (hfirst : start.toList.head? = some first)
    (hhead : isBlank first = false ∧ isGlue first = false) (hcondition : Plain condition) :
    Solid (conditionText start condition) ∧ isHeader (conditionText start condition) = true := by
  have hlast : (conditionText start condition).getLast? = some ')' := by
    rw [conditionText_eq]
    exact getLast?_concat
  have hhead? : (conditionText start condition).head? = some first := by
    rw [conditionText, head?_append, hfirst]
    rfl
  refine ⟨(plain_conditionText hstart hcondition).solid first ')' hhead? hlast hhead rfl, ?_⟩
  rw [conditionText_eq]
  exact isHeader_parenthesis _

/-- An `else` header is kept whole, and its brace opens a block. -/
theorem proper_else : Solid "else" ∧ isHeader "else" = true :=
  ⟨(Plain.fixed (by decide)).solid 'e' 'e' rfl rfl (by decide) rfl, by decide⟩

end Statements

section Programs

/-- The rules allow only code that splitting keeps whole. -/
structure Fits {H : Type} (text : H → Text) (rules : Rules H) : Prop where
  call : ∀ {name arguments : Text}, rules.call name arguments → IsIdentifier name ∧ Plain arguments
  condition : ∀ {condition : Text}, rules.condition condition → Plain condition
  header : ∀ {around : Option H} {opening : H}, rules.header around opening →
    Solid (text opening) ∧ isHeader (text opening) = true

theorem proper_opens {header : Text} {front : List Piece} (hopens : Opens header front)
    (hheader : Solid header ∧ isHeader header = true) : ∀ piece ∈ front, Proper piece := by
  cases hopens with
  | sameLine =>
    intro piece hmem
    obtain rfl := mem_singleton.mp hmem
    exact hheader
  | nextLine =>
    intro piece hmem
    rcases mem_pair.mp hmem with rfl | rfl
    · exact hheader.1
    · trivial

theorem proper_block {front pieces more : List Piece} (hfront : ∀ piece ∈ front, Proper piece)
    (hpieces : ∀ piece ∈ pieces, Proper piece) (hmore : ∀ piece ∈ more, Proper piece) :
    ∀ piece ∈ front ++ (pieces ++ .closing :: more), Proper piece := by
  intro piece hmem
  rcases mem_append.mp hmem with hmem | hmem
  · exact hfront piece hmem
  · rcases mem_append.mp hmem with hmem | hmem
    · exact hpieces piece hmem
    · rcases mem_cons.mp hmem with rfl | hmem
      · trivial
      · exact hmore piece hmem

mutual

/-- The pieces of a tree that follows the rules are proper. -/
theorem proper_tree {H : Type} {text : H → Text} {rules : Rules H} (hfits : Fits text rules)
    {around : Option H}
    {tree : Program.Tree H} {pieces : List Piece} (h : TreePieces text tree pieces)
    (hrules : tree.Follows rules around) : ∀ piece ∈ pieces, Proper piece := by
  cases h with
  | call =>
    obtain ⟨hname, harguments⟩ := hfits.call hrules
    intro piece hmem
    obtain rfl := mem_singleton.mp hmem
    exact solid_callText hname harguments
  | block hopens hbody =>
    obtain ⟨hheader, -, hinner⟩ := hrules
    exact proper_block (proper_opens hopens (hfits.header hheader))
      (proper_forest hfits hbody hinner) nofun
  | branch hopens hbody hrest =>
    obtain ⟨hcondition, -, hinner, hothers⟩ := hrules
    have hproper :=
      proper_conditionText "if" (by decide) rfl (by decide) (hfits.condition hcondition)
    exact proper_block (proper_opens hopens hproper) (proper_forest hfits hbody hinner)
      (proper_branches hfits hrest hothers)

theorem proper_forest {H : Type} {text : H → Text} {rules : Rules H} (hfits : Fits text rules)
    {around : Option H}
    {forest : Forest H} {pieces : List Piece} (h : ForestPieces text forest pieces)
    (hrules : forest.Follows rules around) : ∀ piece ∈ pieces, Proper piece := by
  cases h with
  | nil => exact nofun
  | cons hfirst hrest =>
    intro piece hmem
    rcases mem_append.mp hmem with hmem | hmem
    · exact proper_tree hfits hfirst hrules.1 piece hmem
    · exact proper_forest hfits hrest hrules.2 piece hmem

theorem proper_branches {H : Type} {text : H → Text} {rules : Rules H} (hfits : Fits text rules)
    {branches : Branches H}
    {pieces : List Piece} (h : BranchesPieces text branches pieces)
    (hrules : branches.Follows rules) : ∀ piece ∈ pieces, Proper piece := by
  cases h with
  | done => exact nofun
  | elseIf hopens hbody hrest =>
    obtain ⟨hcondition, -, hinner, hothers⟩ := hrules
    have hproper :=
      proper_conditionText "else if" (by decide) rfl (by decide) (hfits.condition hcondition)
    exact proper_block (proper_opens hopens hproper) (proper_forest hfits hbody hinner)
      (proper_branches hfits hrest hothers)
  | otherwise hopens hbody =>
    exact proper_block (proper_opens hopens proper_else) (proper_forest hfits hbody hrules.2) nofun

end

end Programs

end CodeConverter.Block
