import CodeConverter.Erasure.Annotation

/-!
# Signatures without annotations

Every parenthesis of a line is visited from left to right. If the parameter list it opens belongs
to a signature, the annotations of its parameters and its result type are removed.
-/

namespace CodeConverter.Erasure

open Text Literal Pattern

/-- The place of the parenthesis that brings the depth back to zero, given the depth and the open
quote. -/
def closingParenthesis : Int → Option Char → Text → Option Nat
  | _, _, [] => none
  | depth, some q, c :: t =>
      (closingParenthesis depth (quoteAfter isQuote (some q) c) t).map (· + 1)
  | depth, none, c :: t =>
    if c = ')' && depth = 1 then some 0
    else
      let change : Int := if c = '(' then 1 else if c = ')' then -1 else 0
      (closingParenthesis (depth + change) (quoteAfter isQuote none c) t).map (· + 1)

/-- The place of the parenthesis that matches the first one from a place on. -/
def matchingParenthesis (t : Text) (start : Nat) : Option Nat :=
  (closingParenthesis 0 none (t.drop start)).map (· + start)

/-- The text before a parenthesis that belongs to a control structure. -/
def controlHead : Pattern :=
  wordEdge ++ keyword ["if", "while", "for", "switch", "catch"] ++ blanks ++ atEnd

/-- The result type at the start of the text after a parameter list, and the text after it. -/
def cutResult (after : Text) : Text × Text :=
  match stripStart after with
  | ':' :: t =>
    let length := typeLength true 0 t
    (':' :: t.take length, stripStart (t.drop length))
  | rest => ([], rest)

/-- Whether a parameter list belongs to a signature: a body or an arrow follows, or nothing at all
after a result type. -/
def isSignature (result rest : Text) : Bool :=
  startsWith rest "\x7b" || startsWith rest "=>" || (!result.isEmpty && rest.isEmpty)

/-- The text after an opening parenthesis without the annotations of the signature it belongs to.
The first text ends in the parenthesis, and `close` is the place of the matching one. -/
def stripAfter (head tail : Text) (close : Nat) : Text :=
  let (result, rest) := cutResult (tail.drop (close + 1))
  if isSignature result rest && !controlHead.occursIn (stripEnd head.dropLast) then
    stripEnd (stripParameters (tail.take close) ++ ") " ++ rest)
  else tail

/-- The text up to and including the first opening parenthesis, and the rest. -/
def cutParenthesis (t : Text) : Option (Text × Text) :=
  match t.dropWhile (· ≠ '(') with
  | [] => none
  | c :: rest => some (t.takeWhile (· ≠ '(') ++ [c], rest)

/-- Visits at most `n` parentheses. The first text ends in the one at hand and does not change any
more. -/
def stripSignaturesFrom : Nat → Text → Text → Text
  | 0, head, tail => head ++ tail
  | n + 1, head, tail =>
    match closingParenthesis 1 none tail with
    | none => head ++ tail
    | some close =>
      let tail := stripAfter head tail close
      match cutParenthesis tail with
      | none => head ++ tail
      | some (next, rest) => stripSignaturesFrom n (head ++ next) rest

/-- A line without the annotations of its signatures. No step adds a parenthesis behind the one it
visits, so their number bounds the steps. -/
def stripSignatures (t : Text) : Text :=
  match cutParenthesis t with
  | none => t
  | some (head, tail) => stripSignaturesFrom (t.count '(') head tail

end CodeConverter.Erasure
