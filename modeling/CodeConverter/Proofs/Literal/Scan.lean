import CodeConverter.Literal.Token

/-!
# Scanning a text with literals

What is scanned from the opening quote of a literal on depends on the quote alone: the literal ends
at the first quote of its kind that is not escaped, or it runs to the end of the text.
-/

namespace CodeConverter.Literal

open List Bool

/-- What follows a literal that is open, if it is closed. -/
def leftover (quote : Char) : Text → Option Text
  | [] => none
  | ['\\'] => none
  | '\\' :: _ :: t => leftover quote t
  | c :: t => if c = quote then some t else leftover quote t

/-- Whether a text is a literal that ends with the quote that closes it. -/
def isClosed : Text → Bool
  | [] => false
  | quote :: body => isQuote quote && leftover quote body = some []

/-- Whether a text is a literal that is never closed. -/
def isOpen : Text → Bool
  | [] => false
  | quote :: body => isQuote quote && leftover quote body = none

/-- The literal of a token, with whether it is marked. -/
def Token.literal? : Token → Option (Bool × Text)
  | .code _ => none
  | .literal marked text => some (marked, text)

/-- The literals of a text after some code, in their order, each with whether it is marked. -/
def literalsFrom (before t : Text) : List (Bool × Text) :=
  (tokensFrom before none t).filterMap Token.literal?

/-- The literals of a text in their order, each with whether it is marked. -/
def literalsOf (t : Text) : List (Bool × Text) :=
  literalsFrom [] t

variable {quote : Char}

variable {c : Char} {t rest l : Text}

theorem ne_escape (hsingle : c = '\\' → t = [] → False)
    (hpair : ∀ d u, c = '\\' → t = d :: u → False) : c ≠ '\\' := by
  rintro rfl
  cases t with
  | nil => exact hsingle rfl rfl
  | cons d t => exact hpair d t rfl rfl

theorem leftover_cons (hc : c ≠ '\\') (t : Text) :
    leftover quote (c :: t) = if c = quote then some t else leftover quote t := by
  rw [leftover]
  · exact fun heq => absurd heq hc
  · exact fun _ _ heq => absurd heq hc

theorem tail_cons (hc : c ≠ '\\') (t : Text) :
    tail quote (c :: t) = if c = quote then [c] else c :: tail quote t := by
  rw [tail]
  · exact fun heq => absurd heq hc
  · exact fun _ _ heq => absurd heq hc

theorem tail_append_leftover (quote : Char) (t : Text) :
    tail quote t ++ (leftover quote t).getD [] = t := by
  fun_induction leftover quote t with
  | case1 => rfl
  | case2 => rfl
  | case3 c t ih => rw [tail, cons_append, cons_append, ih]
  | case4 t hsingle hpair =>
    rw [tail_cons (ne_escape hsingle hpair), if_pos rfl]
    rfl
  | case5 c t hsingle hpair hquote ih =>
    rw [tail_cons (ne_escape hsingle hpair), if_neg hquote, cons_append, ih]

theorem exists_of_leftover (h : leftover quote t = some rest) :
    ∃ front, t = front ++ quote :: rest := by
  fun_induction leftover quote t with
  | case1 => cases h
  | case2 => cases h
  | case3 c t ih =>
    obtain ⟨front, rfl⟩ := ih h
    exact ⟨'\\' :: c :: front, rfl⟩
  | case4 t hsingle hpair =>
    cases h
    exact ⟨[], rfl⟩
  | case5 c t hsingle hpair hquote ih =>
    obtain ⟨front, rfl⟩ := ih h
    exact ⟨c :: front, rfl⟩

theorem exists_of_isClosed (h : isClosed l = true) : ∃ front quote, isQuote quote = true ∧
    l = front ++ [quote] := by
  cases l with
  | nil => cases h
  | cons quote body =>
    simp only [isClosed, and_eq_true, decide_eq_true_eq] at h
    obtain ⟨front, rfl⟩ := exists_of_leftover h.2
    exact ⟨quote :: front, quote, h.1, rfl⟩

theorem tokensFrom_open (before : Text) (hquote : isQuote quote = true) (marked : Bool)
    (body t : Text) :
    tokensFrom before (some ⟨quote, marked, false, body⟩) t =
    .literal marked (body.reverse ++ tail quote t) ::
        (match leftover quote t with
          | none => []
          | some rest => tokensFrom ('\x00' :: before) none rest) := by
  have hescape : quote ≠ '\\' := by
    rintro rfl
    cases hquote
  fun_induction leftover quote t generalizing body with
  | case1 | case2 => simp [tokensFrom, tail]
  | case3 c t ih => simp [tokensFrom, tail, ih]
  | case4 t hsingle hpair => simp [tokensFrom, hescape, tail_cons (ne_escape hsingle hpair)]
  | case5 c t hsingle hpair hne ih =>
    have hplain := ne_escape hsingle hpair
    simp [tokensFrom, hplain, hne, ih, tail_cons hplain]

theorem literalsFrom_code (hc : isQuote c = false) (before t : Text) :
    literalsFrom before (c :: t) = literalsFrom (c :: before) t := by
  have htokens : tokensFrom before none (c :: t) = .code c :: tokensFrom (c :: before) none t := by
    simp [tokensFrom, hc]
  rw [literalsFrom, htokens]
  rfl

theorem literalsFrom_quote (hquote : isQuote quote = true) (before t : Text) :
    literalsFrom before (quote :: t) = (endsInMark before, quote :: tail quote t) ::
    (match leftover quote t with
        | none => []
        | some rest => literalsFrom ('\x00' :: before) rest) := by
  simp only [literalsFrom, tokensFrom, hquote, if_true, tokensFrom_open before hquote]
  cases leftover quote t <;> rfl

theorem leftover_append {body : Text} (h : leftover quote body = some rest) (t : Text) :
    leftover quote (body ++ t) = some (rest ++ t) := by
  fun_induction leftover quote body with
  | case1 => cases h
  | case2 => cases h
  | case3 c body ih =>
    rw [cons_append, cons_append, leftover]
    exact ih h
  | case4 body hsingle hpair =>
    cases h
    rw [cons_append, leftover_cons (ne_escape hsingle hpair), if_pos rfl]
  | case5 c body hsingle hpair hne ih =>
    rw [cons_append, leftover_cons (ne_escape hsingle hpair), if_neg hne]
    exact ih h

theorem tokensFrom_closed (h : isClosed l = true) (before t : Text) :
    tokensFrom before none (l ++ t) = .literal (endsInMark before) l ::
    tokensFrom ('\x00' :: before) none t := by
  cases l with
  | nil => cases h
  | cons quote body =>
    simp only [isClosed, and_eq_true, decide_eq_true_eq] at h
    have hleft : leftover quote (body ++ t) = some t := leftover_append h.2 t
    have htail : tail quote (body ++ t) = body := by
      have hall := tail_append_leftover quote (body ++ t)
      rw [hleft] at hall
      exact append_cancel_right hall
    rw [cons_append, tokensFrom, if_pos h.1, tokensFrom_open before h.1, hleft, htail]
    rfl

theorem literalsFrom_closed (h : isClosed l = true) (before t : Text) :
    literalsFrom before (l ++ t) = (endsInMark before, l) :: literalsFrom ('\x00' :: before) t := by
  rw [literalsFrom, tokensFrom_closed h]
  rfl

theorem literalsFrom_open (h : isOpen l = true) (before : Text) :
    literalsFrom before l = [(endsInMark before, l)] := by
  cases l with
  | nil => cases h
  | cons quote body =>
    simp only [isOpen, and_eq_true, decide_eq_true_eq] at h
    have htail : tail quote body = body := by
      have hall := tail_append_leftover quote body
      rw [h.2] at hall
      exact (append_nil _).symm.trans hall
    rw [literalsFrom_quote h.1, h.2, htail]

theorem leftover_tail (h : leftover quote t = some rest) :
    leftover quote (tail quote t) = some [] := by
  fun_induction leftover quote t with
  | case1 => cases h
  | case2 => cases h
  | case3 c t ih =>
    rw [tail, leftover]
    exact ih h
  | case4 t hsingle hpair =>
    have hplain := ne_escape hsingle hpair
    rw [tail_cons hplain, if_pos rfl, leftover_cons hplain, if_pos rfl]
  | case5 c t hsingle hpair hne ih =>
    have hplain := ne_escape hsingle hpair
    rw [tail_cons hplain, if_neg hne, leftover_cons hplain, if_neg hne]
    exact ih h

/-- No code among the tokens is a quote, and every literal is closed, or it is open and the last
token. -/
def Scanned : List Token → Prop
  | [] => True
  | .code c :: ts => isQuote c = false ∧ Scanned ts
  | .literal _ text :: ts => (isClosed text = true ∨ isOpen text = true ∧ ts = []) ∧ Scanned ts

/-- The scan leaves no quote outside of literals. -/
theorem scanned_tokensFrom (n : Nat) (hn : t.length ≤ n) (before : Text) :
    Scanned (tokensFrom before none t) := by
  induction n generalizing t before with
  | zero =>
    obtain rfl : t = [] := length_eq_zero_iff.mp (by omega)
    trivial
  | succ n ih =>
    cases t with
    | nil => trivial
    | cons c t =>
      rw [length_cons] at hn
      by_cases hquote : isQuote c = true
      · simp only [tokensFrom, hquote, if_true, tokensFrom_open before hquote]
        have hsplit := tail_append_leftover c t
        cases hleft : leftover c t with
        | none =>
          rw [hleft, Option.getD_none, append_nil] at hsplit
          exact ⟨.inr ⟨by simp [isOpen, hquote, hsplit, hleft], rfl⟩, trivial⟩
        | some rest =>
          have hshort : rest.length ≤ n := by
            have := congrArg length hsplit
            rw [hleft, Option.getD_some, length_append] at this
            omega
          exact ⟨.inl (by simp [isClosed, hquote, leftover_tail hleft]), ih hshort _⟩
      · simp only [tokensFrom, if_neg hquote]
        exact ⟨eq_false_iff.mpr hquote, ih (by omega) _⟩

theorem scanned_tokens (t : Text) : Scanned (tokens t) :=
  scanned_tokensFrom t.length (Nat.le_refl _) []

theorem isClosed_or_isOpen {l : Bool × Text} (h : l ∈ literalsOf t) : isClosed l.2 = true ∨
    isOpen l.2 = true := by
  have hscanned := scanned_tokens t
  have hl : l ∈ (tokens t).filterMap Token.literal? := h
  generalize tokens t = ts at hscanned hl
  induction ts with
  | nil => cases hl
  | cons token ts ih =>
    cases token with
    | code c => exact ih hscanned.2 hl
    | literal marked text =>
      rcases mem_cons.mp hl with rfl | hlater
      · exact hscanned.1.imp_right And.left
      · exact ih hscanned.2 hlater

theorem Scanned.isQuote {ts : List Token} (h : Scanned ts) (hc : Token.code c ∈ ts) :
    isQuote c = false := by
  induction ts with
  | nil => cases hc
  | cons token ts ih =>
    cases token with
    | code d =>
      rcases mem_cons.mp hc with heq | hlater
      · obtain rfl : c = d := by simpa using heq
        exact h.1
      · exact ih h.2 hlater
    | literal marked text => exact ih h.2 (by simpa using hc)

/-- Whether a token is a literal. -/
def Token.isLiteral : Token → Bool
  | .code _ => false
  | .literal _ _ => true

/-- Every literal starts with a quote. -/
theorem countP_isLiteral_le (t : Text) : (tokens t).countP Token.isLiteral ≤ t.countP isQuote := by
  have hquote : ∀ text : Text, isClosed text = true ∨ isOpen text = true →
      0 < text.countP isQuote := by
    intro text h
    cases text with
    | nil => rcases h with h | h <;> cases h
    | cons quote body =>
      have hquote :
          isQuote quote = true := by rcases h with h | h <;> exact (and_eq_true_iff.mp h).1
      rw [countP_cons_of_pos hquote]
      exact Nat.succ_pos _
  have hall : ∀ ts, Scanned ts →
      ts.countP Token.isLiteral ≤ (ts.flatMap Token.text).countP isQuote := by
    intro ts h
    induction ts with
    | nil => exact Nat.le_refl _
    | cons token ts ih =>
      have hrest := ih (by cases token <;> exact h.2)
      rw [flatMap_cons, countP_append]
      cases token with
      | code c => exact Nat.le_trans hrest (Nat.le_add_left _ _)
      | literal marked text =>
        have hfirst := hquote text (h.1.imp_right And.left)
        rw [countP_cons_of_pos rfl, Token.text]
        omega
  have hcount := hall _ (scanned_tokens t)
  rwa [flatMap_tokens] at hcount

end CodeConverter.Literal
