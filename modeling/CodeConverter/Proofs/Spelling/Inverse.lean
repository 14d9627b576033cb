import CodeConverter.Proofs.Spelling.Chain

/-!
# The two spellings undo each other

An expression of the core language is a tree. It is printed in a style, with single blanks around
its operators. Spelling the printed tree with words gives the tree printed with words, and spelling
that with symbols gives back the tree printed with symbols. The strings of the tree are masked
meanwhile, so what is respelled is the list of its lexemes.
-/

namespace CodeConverter.Spelling

open List hiding set
open Literal Text

/-- Expressions of the core language. -/
inductive Expr where
  | word (w : Word)
  | quoted (q : Quoted)
  | constant (k : Constant)
  | binary (o : Operator) (left right : Expr)
  | negated (body : Expr)
  | grouped (body : Expr)

namespace Lexeme

/-- A lexeme as it is spelt. -/
def text (s : Style) : Lexeme → Text
  | .word w => w.text
  | .quoted q => q.text
  | .symbol y => y.laid s

/-- The tokens of a lexeme. -/
def tokens (s : Style) : Lexeme → List Token
  | .quoted q => [.literal false q.text]
  | l => (l.text s).map .code

end Lexeme

/-- The strings among the lexemes. -/
def strings : List Lexeme → List Text
  | [] => []
  | .quoted q :: ls => q.text :: strings ls
  | _ :: ls => strings ls

namespace Expr

/-- The text of an expression in a style. -/
def print (s : Style) : Expr → Text
  | .word w => w.text
  | .quoted q => q.text
  | .constant k => s (.constant k)
  | .binary o left right => left.print s ++ " " ++ s (.operator o) ++ " " ++ right.print s
  | .negated body => s .negation ++ body.print s
  | .grouped body => s .opening ++ body.print s ++ s .closing

/-- The lexemes of an expression. -/
def lexemes : Expr → List Lexeme
  | .word w => [.word w]
  | .quoted q => [.quoted q]
  | .constant k => [.symbol (.constant k)]
  | .binary o left right => left.lexemes ++ .symbol (.operator o) :: right.lexemes
  | .negated body => .symbol .negation :: body.lexemes
  | .grouped body => .symbol .opening :: (body.lexemes ++ [.symbol .closing])

theorem flatMap_lexemes (s : Style) (e : Expr) : e.lexemes.flatMap (Lexeme.text s) = e.print s := by
  induction e with
  | word | quoted | constant => simp [lexemes, print, Lexeme.text, Symbol.laid, Symbol.pad]
  | binary o left right ihleft ihright =>
      simp [lexemes, print, Lexeme.text, Symbol.laid, Symbol.pad, ihleft, ihright]
  | negated body ih | grouped body ih =>
      simp [lexemes, print, Lexeme.text, Symbol.laid, Symbol.pad, ih]

theorem alternates_lexemes (e : Expr) {rest : List Lexeme} (h : Alternates false rest) :
    Alternates true (e.lexemes ++ rest) := by
  induction e generalizing rest with
  | word | quoted | constant => exact ⟨rfl, h⟩
  | binary o left right ihleft ihright =>
    rw [lexemes, append_assoc]
    exact ihleft ⟨rfl, ihright h⟩
  | negated body ih => exact ⟨rfl, ih h⟩
  | grouped body ih =>
    rw [lexemes, cons_append, append_assoc]
    exact ⟨rfl, ih ⟨rfl, h⟩⟩

end Expr

/-- The symbols of a style hold neither quotes nor null characters, and none in front of an operand
ends in a mark. -/
def Proper (s : Style) : Prop :=
  ∀ y ∈ Symbol.all, (∀ c ∈ y.laid s, isClean c = true) ∧
    (y.leaves = true → (y.laid s).getLast?.any (fun c => !endsMark c) = true)

variable {s old young : Style} {ls : List Lexeme} {l : Lexeme} {expects : Bool} {t : Text}

theorem isClean_of_code (hs : Proper s) {c : Char} (h : .code c ∈ l.tokens s) :
    isClean c = true := by
  cases l with
  | word w =>
    have hc : c ∈ w.text := by simpa [Lexeme.tokens, Lexeme.text] using h
    have hnull : c ≠ '\x00' := by
      rintro rfl
      cases w.isName.2 _ hc
    simp [isClean, (w.isName.isIdentifier.isEntry.plain c hc).2.2, hnull]
  | quoted q => simp [Lexeme.tokens] at h
  | symbol y =>
    obtain ⟨d, hd, hdc⟩ := mem_map.mp h
    cases hdc
    exact (hs y y.mem_all).1 c hd

theorem tokensFrom_codes {x : Text} (hx : ∀ c ∈ x, isClean c = true) (before t : Text) :
    tokensFrom before none (x ++ t) = x.map .code ++ tokensFrom (x.reverse ++ before) none t := by
  induction x generalizing before with
  | nil => rfl
  | cons c x ih =>
    have hquote :
        isQuote c = false := by simpa using (Bool.and_eq_true_iff.mp (hx c mem_cons_self)).2
    simp [tokensFrom, hquote, ih fun d hd => hx d (mem_cons_of_mem c hd)]

/-- The literals of an expression are its tokens. -/
theorem tokensFrom_flatMap (hs : Proper s) (hls : Alternates expects ls) {before : Text}
    (hbefore : expects = true → endsInMark before = false) :
    tokensFrom before none (ls.flatMap (Lexeme.text s)) = ls.flatMap (Lexeme.tokens s) := by
  induction ls generalizing expects before with
  | nil => rfl
  | cons l ls ih =>
    obtain ⟨rfl, hrest⟩ := hls
    rw [flatMap_cons, flatMap_cons]
    cases l with
    | quoted q =>
      rw [Lexeme.text, tokensFrom_closed q.isClosed, hbefore rfl, ih hrest fun hexpects =>
        absurd hexpects Bool.false_ne_true]
      rfl
    | word w =>
      rw [tokensFrom_codes fun c hc => isClean_of_code hs (l := .word w) (mem_map_of_mem hc),
        ih hrest fun hexpects => absurd hexpects Bool.false_ne_true]
      rfl
    | symbol y =>
      rw [Lexeme.text, tokensFrom_codes (hs y y.mem_all).1, ih hrest fun hleaves => ?_]
      · rfl
      · obtain ⟨c, hlast, hc⟩ := (Option.any_eq_true _ _).mp ((hs y y.mem_all).2 hleaves)
        obtain ⟨front, hfront⟩ := getLast?_eq_some_iff.mp hlast
        rw [hfront, reverse_concat]
        exact (marks_eq_false (by simpa using hc) _).2

theorem mask_codes (n : Nat) (x : Text) (ts : List Token) :
    mask n (x.map .code ++ ts) = x ++ mask n ts := by
  induction x with
  | nil => rfl
  | cons c x ih => exact congrArg (c :: ·) ih

theorem literalTexts_codes (x : Text) (ts : List Token) :
    literalTexts (x.map .code ++ ts) = literalTexts ts := by
  induction x with
  | nil => rfl
  | cons c x ih => exact ih

theorem mask_flatMap (s : Style) (n : Nat) (ls : List Lexeme) :
    mask n (ls.flatMap (Lexeme.tokens s)) = masked s n ls ∧
    literalTexts (ls.flatMap (Lexeme.tokens s)) = strings ls := by
  induction ls generalizing n with
  | nil => exact ⟨rfl, rfl⟩
  | cons l ls ih =>
    cases l with
    | quoted q => exact ⟨congrArg (maskToken n ++ ·) (ih _).1, congrArg (q.text :: ·) (ih n).2⟩
    | word w | symbol y =>
      rw [flatMap_cons, Lexeme.tokens, mask_codes, literalTexts_codes]
      · exact ⟨congrArg (_ ++ ·) (ih n).1, (ih n).2⟩
      · intro q hq
        cases hq

namespace Expr

/-- An expression is respelled from one style to another where its lexemes are. -/
theorem respellOutside_print {f : Text → Text} (hold : Proper old) (hyoung : Proper young)
    (e : Expr)
    (hroom : (strings e.lexemes).length ≤ capacity)
    (hf : f (masked old 0 e.lexemes) = masked young 0 e.lexemes) :
    respellOutside f (e.print old) = .ok (e.print young) := by
  have halternates : Alternates true e.lexemes := by simpa using @alternates_lexemes e [] rfl
  have htokens {s : Style} (hs : Proper s) :
      tokens (e.print s) = e.lexemes.flatMap (Lexeme.tokens s) := by
    rw [← e.flatMap_lexemes]
    exact tokensFrom_flatMap hs halternates fun _ => rfl
  have hplain : ∀ l ∈ (e.lexemes.flatMap (Lexeme.tokens old)).filterMap Token.literal?,
      isPlainLiteral l = true := by
    intro l hl
    obtain ⟨token, htoken, hliteral⟩ := mem_filterMap.mp hl
    obtain ⟨lexeme, -, hmem⟩ := mem_flatMap.mp htoken
    cases lexeme with
    | quoted q =>
      obtain rfl := mem_singleton.mp hmem
      obtain rfl : (false, q.text) = l := Option.some.inj hliteral
      simp [isPlainLiteral, q.isClosed, q.isPlain]
    | word w | symbol y =>
      obtain ⟨c, -, rfl⟩ := mem_map.mp hmem
      cases hliteral
  have hclean : Clean (maskItems 0 (tokens (e.print young))) := by
    intro c hc
    obtain ⟨l, -, hmem⟩ := mem_flatMap.mp (htokens hyoung ▸ mem_maskItems hc)
    exact isClean_of_code hyoung hmem
  have hstrings : literalTexts (tokens (e.print young)) = strings e.lexemes := by
    rw [htokens hyoung]
    exact (mask_flatMap young 0 e.lexemes).2
  rw [respellOutside, respellWithin, htokens hold, respellLiterals_of_plain _ hplain,
    (mask_flatMap old 0 _).2]
  show unmask _ (f (mask 0 _)) = _
  rw [(mask_flatMap old 0 _).1, hf, ← (mask_flatMap young 0 _).1, ← htokens hyoung, mask_eq_render,
    ← hstrings, unmask_render hclean fun n hn => ?_, (fill_tokens _).1]
  rw [marks_maskItems, ← length_literalTexts, hstrings, mem_range'_1, Nat.zero_add] at hn
  exact ⟨hstrings ▸ hn.2, Nat.lt_of_lt_of_le hn.2 hroom⟩

/-- Spelling an expression with words and spelling it with symbols undo each other. -/
theorem respelled_print (e : Expr) (hroom : (strings e.lexemes).length ≤ capacity) :
    wordExpression (e.print symbols) = .ok (e.print words) ∧
      symbolExpression true "this." (e.print words) = .ok (e.print symbols) := by
  have halternates : Alternates true e.lexemes := by simpa using @alternates_lexemes e [] rfl
  have hwords : Proper words := by unfold Proper; decide
  have hsymbols : Proper symbols := by unfold Proper; decide
  exact ⟨e.respellOutside_print hsymbols hwords hroom (toWords_masked halternates 0),
    e.respellOutside_print hwords hsymbols hroom (toSymbols_masked _ halternates 0)⟩

/-- A negated comparison with a string that looks like an operator, and a constant. -/
def guarded : Expr :=
  .binary .either
    (.negated
    (.grouped
    (.binary .equal (.word ⟨"f", by decide, by decide⟩)
    (.quoted ⟨"'a && \\'b'", by decide, by decide⟩))))
    (.binary .unequal (.word ⟨"10", by decide, by decide⟩) (.constant .none))

/-- The text of the expression in both spellings. -/
theorem respelled_print_guarded : (strings guarded.lexemes).length ≤ capacity ∧
    wordExpression "!(f === 'a && \\'b') || 10 !== null" =
    .ok "not (f == 'a && \\'b') or 10 != None" ∧
      symbolExpression true "this." "not (f == 'a && \\'b') or 10 != None" =
      .ok "!(f === 'a && \\'b') || 10 !== null" := by
  have hroom : (strings guarded.lexemes).length ≤ capacity :=
    Nat.le_trans (by decide) ten_le_capacity
  exact ⟨hroom, guarded.respelled_print hroom⟩

end Expr

end CodeConverter.Spelling
