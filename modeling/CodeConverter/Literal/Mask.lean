import CodeConverter.Literal.Token
import CodeConverter.Pattern.Vocabulary

/-!
# Respelling code outside string literals

A respelling must not touch string literals, but its patterns may reach across them. So every
literal is replaced by a numbered token, the respelling is applied to the masked text, and each
token is replaced by the literal it names. Holes of interpolated literals are code and are
respelled in the same way on their own.
-/

namespace CodeConverter.Literal

open Pattern

/-- The token that stands for the literal with the given number. -/
def maskToken (n : Nat) : Text :=
  '\x00' :: (Text.decimal n ++ ['\x00'])

/-- The text of the tokens with literals masked, numbered from `n`. -/
def mask (n : Nat) : List Token → Text
  | [] => []
  | .code c :: ts => c :: mask n ts
  | .literal _ _ :: ts => maskToken n ++ mask (n + 1) ts

/-- The token of a masked literal. -/
def maskPattern : Pattern :=
  "\x00" ++ group 1 (many1 Text.isDigit) ++ "\x00"

/-- A hole of a backtick literal: code without braces in braces after a dollar sign. -/
def dollarHole : Pattern :=
  "$\x7b" ++ group 1 (many (except "{}")) ++ "\x7d"

/-- A hole of a marked literal: code without braces in braces, not after another brace. -/
def braceHole : Pattern :=
  notBehind (among "\x7b") ++ "\x7b" ++ group 1 (many (except "{}")) ++ "\x7d"

/-- The literal that a token names. -/
def unmaskOne (literals : List Text) (m : Match) : Except Fault Text := do
  let n ← Text.readNat (m.group 1)
  match literals[n]? with
  | some text => pure text
  | none => throw .unknownToken

/-- A text with its literals filled in. -/
def unmask (literals : List Text) (t : Text) : Except Fault Text :=
  maskPattern.tryReplaceBy (unmaskOne literals) t

/-- A literal with its holes respelled. -/
def respellHoles (respell : Text → Except Fault Text) (marked : Bool) (text : Text) :
    Except Fault Text :=
  if text.head? = some '`' then
    dollarHole.tryReplaceBy (fun m => do return "$\x7b" ++ (← respell (m.group 1)) ++ "\x7d") text
  else if marked then
    braceHole.tryReplaceBy (fun m => do return "\x7b" ++ (← respell (m.group 1)) ++ "\x7d") text
  else pure text

/-- The literals with their holes respelled. -/
def respellLiterals (respell : Text → Except Fault Text) : List Token → Except Fault (List Text)
  | [] => pure []
  | .code _ :: ts => respellLiterals respell ts
  | .literal marked text :: ts => do
    let respelled ← respellHoles respell marked text
    let rest ← respellLiterals respell ts
    pure (respelled :: rest)

/-- Applies `f` to a text with its literals masked, descending at most `depth` times into holes. -/
def respellWithin (f : Text → Text) : Nat → Text → Except Fault Text
  | 0, t => pure t
  | depth + 1, t => do
    let ts := tokens t
    let literals ← respellLiterals (respellWithin f depth) ts
    unmask literals (f (mask 0 ts))

/-- Applies `f` to a text with its literals masked. A hole is shorter than the text it stands in,
so the length of the text bounds the nesting of holes. -/
def respellOutside (f : Text → Text) (t : Text) : Except Fault Text :=
  respellWithin f (t.length + 1) t

/-- The place of the quote that closes the literal opened at `start`, or the last place. -/
def endIndex (t : Text) (start : Nat) : Except Fault Nat :=
  match t.drop start with
  | [] => .error .offsetPastEnd
  | quote :: rest => .ok (start + (tail quote rest).length)

end CodeConverter.Literal
