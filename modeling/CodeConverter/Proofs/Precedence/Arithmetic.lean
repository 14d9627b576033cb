import CodeConverter.Proofs.Precedence.Language
import CodeConverter.Proofs.Text.Numeral

/-!
# Arithmetic expressions

The language of sums, differences and products of integer literals and variables, with signs and
parentheses, as it is common to all the languages that count. Doubled signs mean different things in
different languages, so they are no part of it. `Denotes` says which number a text stands for.
-/

namespace CodeConverter.Precedence

open Text Program List

variable {c : Char}

/-- The signs of arithmetic. A doubled sign is refused. -/
inductive Sign where
  | plus
  | minus
  | times
  | doubled
  deriving DecidableEq

/-- Products bind more tightly than sums, and signs in front of an operand more tightly still. -/
def arithmetic : Language Sign where
  ranks := {
    between := fun
      | .plus => some 1
      | .minus => some 1
      | .times => some 2
      | .doubled => none
    front := fun
      | .plus => some 3
      | .minus => some 3
      | _ => none
    chains := fun _ => true
    front_ne_between := by
      intro s s' m hfront
      cases s <;> cases hfront <;> cases s' <;> decide
  }
  keyword := fun _ => none
  barred := []
  symbols := [("+", .sign .plus), ("-", .sign .minus), ("*", .sign .times), ("++", .sign .doubled),
    ("--", .sign .doubled), ("**", .sign .doubled), ("(", .opening), (")", .closing)]
  symbol_ne_nil := by decide
  symbol_chars := by decide
  symbol_unique := by decide

/-- The number that a word stands for: a run of digits for itself, another word for the value of the
variable. -/
def valueOf (env : Text → Int) (w : Text) : Int :=
  if w.all Char.isDigit then natOfDigits w else env w

/-- The value of an expression. -/
def Tree.value (env : Text → Int) : Tree Sign → Int
  | .word w => valueOf env w
  | .unary .minus body => -body.value env
  | .unary _ body => body.value env
  | .binary .plus left right => left.value env + right.value env
  | .binary .minus left right => left.value env - right.value env
  | .binary .times left right => left.value env * right.value env
  | .binary .doubled left _ => left.value env
  | .grouped body => body.value env

/-- The text stands for an expression with the given value. -/
def Denotes (env : Text → Int) (t : Text) (n : Int) : Prop :=
  ∃ tree, Means arithmetic t tree ∧ tree.value env = n

/-- A literal: a number in its shortest form, with fewer digits than the limit. -/
def IsLiteral (w : Text) : Prop :=
  ∃ n, w = decimal n ∧ w.length < digitLimit

/-- A variable: a name that does not start with a digit. -/
def IsVariable (w : Text) : Prop :=
  IsName w ∧ ∀ c ∈ w.head?, isDigit c = false

variable {env : Text → Int} {t w : Text} {n m : Int} {tree : Tree Sign}

/-- A text denotes one number. -/
theorem Denotes.unique (h : Denotes env t n) (h' : Denotes env t m) : n = m := by
  obtain ⟨tree, hmeans, rfl⟩ := h
  obtain ⟨tree', hmeans', rfl⟩ := h'
  rw [hmeans.unique hmeans']

theorem Denotes.layouts {gap : Text} (hgap : ∀ c ∈ gap, isLayout c = true) (h : Denotes env t n) :
    Denotes env (gap ++ t) n := by
  obtain ⟨tree, ⟨hlaid, hfits⟩, hvalue⟩ := h
  exact ⟨tree, ⟨hlaid.layouts hgap, hfits⟩, hvalue⟩

theorem means_word (h : IsName w) : Means arithmetic w (.word w) := by
  have hlaid := Laid.word (l := arithmetic) (t := []) h (by simp) rfl .nil
  rw [append_nil] at hlaid
  exact ⟨hlaid, .word _ _⟩

theorem denotes_word (h : IsName w) : Denotes env w (valueOf env w) :=
  ⟨_, means_word h, rfl⟩

theorem longest_sign (ht : ∀ d ∈ t.head?, d ∉ ("+-*" : Text)) : arithmetic.Longest [c] t := by
  have hdoubled : ∀ entry ∈ arithmetic.symbols, entry.1.length ≤ 1 ∨ ∃ d ∈ entry.1[1]?,
      d ∈ ("+-*" : Text) := by
    simp [arithmetic]
  refine arithmetic.longest_of fun entry hentry _ => (hdoubled entry hentry).imp_right ?_
  rintro ⟨d, hd, hsign⟩
  exact ⟨d, hd, fun hhead => ht d hhead hsign⟩

theorem means_minus_word (h : IsName w) :
    Means arithmetic ('-' :: w) (.unary .minus (.word w)) := by
  have hword := (means_word h).1
  refine ⟨.symbol (x := ['-']) (by decide) (longest_sign fun d hd hsign => ?_) hword,
    .unary rfl (Nat.zero_le _) (.word _ _)⟩
  have hall : ∀ d ∈ ("+-*" : Text), isWord d = false := by decide
  have hfalse := hall d hsign
  rw [h.2 d (mem_of_mem_head? hd)] at hfalse
  cases hfalse

theorem Fits.arithmetic_one {k : Nat} (h : Fits arithmetic.ranks k tree) :
    Fits arithmetic.ranks 1 tree := by
  cases h with
  | word => exact .word _ _
  | @unary _ rank s body hrank _ hbody =>
    refine .unary hrank ?_ hbody
    cases s <;> cases hrank <;> decide
  | @binary _ rank s left right hrank _ hleft hright =>
    refine .binary hrank ?_ hleft hright
    cases s <;> cases hrank <;> decide
  | grouped _ hbody => exact .grouped _ hbody

theorem Means.add_word {s : Sign} (h : Means arithmetic t tree)
    (hs : ([c], Token.sign s) ∈ arithmetic.symbols)
    (hrank : arithmetic.ranks.between s = some 1) (hw : IsName w) :
    Means arithmetic (t ++ (' ' :: c :: ' ' :: w)) (.binary s tree (.word w)) := by
  have hsign : Laid arithmetic (' ' :: c :: ' ' :: w) [.sign s, .word w] :=
    .layout rfl (.symbol hs (longest_sign (by simp)) (.layout rfl (means_word hw).1))
  exact ⟨h.1.append hsign rfl, .binary hrank (Nat.zero_le _) h.2.arithmetic_one (.word _ _)⟩

theorem valueOf_decimal (env : Text → Int) (n : Nat) : valueOf env (decimal n) = n := by
  have hdigits : (decimal n).all Char.isDigit = true :=
    all_eq_true.mpr fun c hc => isDigit_of_mem_decimal hc
  rw [valueOf, if_pos hdigits, natOfDigits_decimal]

/-- A number that is written denotes itself. -/
theorem denotes_signedDecimal (env : Text → Int) (n : Int) : Denotes env (signedDecimal n) n := by
  rw [signedDecimal]
  split
  · refine ⟨_, means_minus_word (isName_decimal _), ?_⟩
    rw [Tree.value, Tree.value, valueOf_decimal]
    omega
  · refine ⟨_, means_word (isName_decimal _), ?_⟩
    rw [Tree.value, valueOf_decimal]
    omega

theorem Denotes.succ (h : Denotes env t n) : Denotes env (t ++ " + 1") (n + 1) := by
  obtain ⟨tree, hmeans, rfl⟩ := h
  exact ⟨_, hmeans.add_word (s := .plus) (c := '+') (w := ['1']) (by decide) rfl
    ⟨by decide, by decide⟩, rfl⟩

theorem Denotes.pred (h : Denotes env t n) : Denotes env (t ++ " - 1") (n - 1) := by
  obtain ⟨tree, hmeans, rfl⟩ := h
  exact ⟨_, hmeans.add_word (s := .minus) (c := '-') (w := ['1']) (by decide) rfl
    ⟨by decide, by decide⟩, rfl⟩

theorem Means.not_mem (h : Means arithmetic t tree) (hlayout : isLayout c = false)
    (hword : isWord c = false) (hsymbol : c ∉ ("+-*()" : Text)) : c ∉ t := by
  intro hc
  rcases h.1.chars c hc with hl | hw | ⟨entry, hentry, hmem⟩
  · rw [hlayout] at hl
    cases hl
  · rw [hword] at hw
    cases hw
  · have hall : ∀ entry ∈ arithmetic.symbols, ∀ d ∈ entry.1, d ∈ ("+-*()" : Text) := by decide
    exact hsymbol (hall entry hentry c hmem)

end CodeConverter.Precedence
