import CodeConverter.Text.Word

/-!
# String literals in a line of code

A literal is opened by a single quote, a double quote or a backtick and runs to the next quote of
the same kind that is not escaped by a backslash, or to the end of the text. The tokens of a text
are its literals and the single characters of code around them; written one after another they
give the text back (`flatMap_tokens`).
-/

namespace CodeConverter.Literal

/-- The characters that open a string literal: both quotes and the backtick. -/
def isQuote (c : Char) : Bool :=
  c = '\x27' || c = '\x22' || c = '`'

/-- The quotes that open a string literal where backticks do not. -/
def isPlainQuote (c : Char) : Bool :=
  c = '\x27' || c = '\x22'

/-- A character of code, or a whole string literal with its quotes. A literal is marked when an
`f` that belongs to no longer word stands right before it. -/
inductive Token where
  | code (c : Char)
  | literal (marked : Bool) (text : Text)

/-- The text of a token. -/
def Token.text : Token → Text
  | .code c => [c]
  | .literal _ text => text

/-- A literal whose end has not been seen: its quote, whether it is marked, whether the next
character is escaped, and its characters so far, the latest first. -/
structure Unfinished where
  quote : Char
  marked : Bool
  escaped : Bool
  body : Text

/-- Whether the code before a literal, its last character first, starts with a free `f`. -/
def startsWithMark : Text → Bool
  | [] => false
  | [c] => c = 'f' || c = 'F'
  | c :: d :: _ => (c = 'f' || c = 'F') && !Text.isWord d

/-- Whether the code before a literal ends in a free `f`. One line feed after it is overlooked. -/
def endsInMark : Text → Bool
  | '\n' :: before => startsWithMark before
  | before => startsWithMark before

/-- The tokens of the text, with the code before it, its last character first, and the literal it
starts in, if any. A finished literal counts as one character that is no word character. -/
def tokensFrom : Text → Option Unfinished → Text → List Token
  | _, none, [] => []
  | _, some l, [] => [.literal l.marked l.body.reverse]
  | before, none, c :: t =>
    if isQuote c then tokensFrom before (some ⟨c, endsInMark before, false, [c]⟩) t
    else .code c :: tokensFrom (c :: before) none t
  | before, some l, c :: t =>
    if l.escaped then tokensFrom before (some { l with escaped := false, body := c :: l.body }) t
    else if c = '\\' then
      tokensFrom before (some { l with escaped := true, body := c :: l.body }) t
    else if c = l.quote then
      .literal l.marked (c :: l.body).reverse :: tokensFrom ('\x00' :: before) none t
    else tokensFrom before (some { l with body := c :: l.body }) t

/-- The tokens of a text. -/
def tokens (t : Text) : List Token :=
  tokensFrom [] none t

/-- The characters of a literal seen so far. -/
def Unfinished.seen : Option Unfinished → Text
  | none => []
  | some l => l.body.reverse

/-- The tokens give back the text with what was seen of an open literal in front. -/
theorem flatMap_tokensFrom (before : Text) (l : Option Unfinished) (t : Text) :
    (tokensFrom before l t).flatMap Token.text = Unfinished.seen l ++ t := by
  induction t generalizing before l with
  | nil => cases l <;> simp [tokensFrom, Unfinished.seen, Token.text]
  | cons c t ih =>
    cases l with
    | none =>
      unfold tokensFrom
      split
      · rw [ih]
        simp [Unfinished.seen]
      · rw [List.flatMap_cons, ih]
        simp [Unfinished.seen, Token.text]
    | some l =>
      unfold tokensFrom
      split
      · rw [ih]
        simp [Unfinished.seen]
      · split
        · rw [ih]
          simp [Unfinished.seen]
        · split
          · rw [List.flatMap_cons, ih]
            simp [Unfinished.seen, Token.text]
          · rw [ih]
            simp [Unfinished.seen]

/-- The tokens of a text give it back. -/
theorem flatMap_tokens (t : Text) : (tokens t).flatMap Token.text = t := by
  simpa [tokens, Unfinished.seen] using flatMap_tokensFrom [] none t

/-- The rest of a literal after its opening quote, closing quote included. -/
def tail (quote : Char) : Text → Text
  | [] => []
  | ['\\'] => ['\\']
  | '\\' :: c :: t => '\\' :: c :: tail quote t
  | c :: t => if c = quote then [c] else c :: tail quote t

end CodeConverter.Literal
