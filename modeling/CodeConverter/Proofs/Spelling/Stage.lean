import CodeConverter.Proofs.Literal.Plain
import CodeConverter.Proofs.Pattern.Field
import CodeConverter.Proofs.Pattern.Sketch
import CodeConverter.Spelling

/-!
# Respelling a symbol of an expression

An expression with its strings masked is a list of lexemes: words, tokens and symbols. A style says
how each symbol is spelt. Each replacement that a spelling makes is a `Stage`: it changes the
spelling of some symbols and leaves all else alone, wherever the lexemes stand in an expression.
-/

namespace CodeConverter

open List hiding set

namespace Pattern

variable {p : Pattern} {new x rest out t : Text} {before : Option Char} {c : Char}

/-- Replacing from a place behind `before` on turns the text that follows into another. -/
def Turns (p : Pattern) (new : Text) (before : Option Char) (t out : Text) : Prop :=
  ∀ (subject : Text) (s : State), s.before = before → s.ahead = t →
    Rewrites p (fun _ => new) subject s out

namespace Turns

theorem replaceWith_eq (h : Turns p new none t out) : p.replaceWith new t = out :=
  h t (.start t) rfl rfl t (Nat.le_refl _)

section

variable (h : Turns p new (x.getLast?.or before) rest out)

include h

theorem skip
    (hnone : ∀ a b, x = a ++ b → b ≠ [] → ∀ i,
    p.outcomes ⟨a.getLast?.or before, b ++ rest, i, []⟩ = []) :
    Turns p new before (x ++ rest) (x ++ out) := by
  rintro subject s rfl hahead
  refine .skip hahead (h _ _ rfl rfl) fun a b hab hb => ?_
  have hhere : p.outcomes { s.past a (b ++ rest) with captures := [] } = [] := hnone a b hab hb _
  rw [matchAt_eq, hhere]
  rfl

omit h in
theorem step {c : Char} (h : Turns p new (some c) rest out)
    (hnone : ∀ i, p.outcomes ⟨before, c :: rest, i, []⟩ = []) :
    Turns p new before (c :: rest) (c :: out) := by
  refine skip (x := [c]) h fun a b hab hb i => ?_
  rcases singleton_eq_append_iff.mp hab with ⟨rfl, rfl⟩ | ⟨-, rfl⟩
  · exact hnone i
  · exact absurd rfl hb

theorem found (hx : x ≠ []) (hfirst : ∀ i, (p.outcomes ⟨before, x ++ rest, i, []⟩).head? =
    some ⟨x.getLast?.or before, rest, i + x.length, []⟩) :
    Turns p new before (x ++ rest) (new ++ out) := by
  rintro subject s rfl hahead
  have hm : p.matchAt subject s =
      some ⟨subject, s, ⟨x.getLast?.or s.before, rest, s.index + x.length, []⟩⟩ := by
    rw [matchAt_eq, hahead, hfirst]
    rfl
  have hlength := length_pos_iff.mpr hx
  exact .found hm (Nat.lt_add_of_pos_right hlength) (by simp [hahead, hlength]) (h _ _ rfl rfl)

end

variable (hneeds : p.needs (fun _ => true) = true)

include hneeds

theorem nil (before : Option Char) : Turns p new before [] [] :=
  fun _ s _ hahead => Rewritten.nil hneeds s hahead

theorem outcomes_of_beginsWith (h : p.beginsWith c = false) (before : Option Char) (t : Text)
    (i : Nat) : p.outcomes ⟨before, c :: t, i, []⟩ = [] := by
  refine eq_nil_iff_forall_not_mem.mpr fun u hu => ?_
  obtain ⟨piece, hreads⟩ := reads_of_mem_outcomes hu
  obtain ⟨d, hd, -⟩ := hreads.needs hneeds
  obtain ⟨e, piece, rfl⟩ := exists_cons_of_ne_nil (ne_nil_of_mem hd)
  obtain ⟨rfl, -⟩ := cons.inj (show c :: t = e :: (piece ++ u.ahead) from hreads.ahead_eq)
  rw [hreads.beginsWith rfl] at h
  cases h

theorem of_beginsWith (hx : ∀ c ∈ x, p.beginsWith c = false)
    (h : Turns p new (x.getLast?.or before) rest out) :
    Turns p new before (x ++ rest) (x ++ out) := by
  refine h.skip fun a b hab hb i => ?_
  obtain ⟨c, b, rfl⟩ := exists_cons_of_ne_nil hb
  exact outcomes_of_beginsWith hneeds (hx c (by simp [hab])) _ _ i

end Turns

/-- No match starts in the text, whatever the rest is. -/
def quiet (p : Pattern) (i : Nat) : Option Char → Text → Text → Bool
  | _, [], _ => true
  | before, c :: x, rest =>
    (!p.beginsWith c || (p.outcomes ⟨before, c :: (x ++ rest), i, []⟩).isEmpty) &&
      quiet p i (some c) x rest

theorem Turns.of_quiet (hneeds : p.needs (fun _ => true) = true)
    (hx : ∀ i, quiet p i before x rest = true)
    (h : Turns p new (x.getLast?.or before) rest out) :
    Turns p new before (x ++ rest) (x ++ out) := by
  induction x generalizing before with
  | nil => exact h
  | cons c x ih =>
    simp only [quiet, Bool.and_eq_true, Bool.or_eq_true, Bool.not_eq_true', List.isEmpty_iff] at hx
    rw [getLast?_cons, Option.some_or, ← Option.or_some] at h
    exact .step (ih (fun i => (hx i).2) h) fun i =>
      (hx i).1.elim (fun hbegin => outcomes_of_beginsWith hneeds hbegin _ _ i) id

end Pattern

namespace Spelling

open Pattern Literal Text Program

/-- The constants. -/
inductive Constant where
  | none
  | yes
  | no
  deriving DecidableEq

/-- The operators between two operands. -/
inductive Operator where
  | equal
  | unequal
  | less
  | atMost
  | greater
  | atLeast
  | both
  | either
  deriving DecidableEq

/-- What a style spells. -/
inductive Symbol where
  | constant (k : Constant)
  | operator (o : Operator)
  | negation
  | opening
  | closing
  deriving DecidableEq

/-- How each symbol is spelt. -/
abbrev Style := Symbol → Text

/-- Operators and constants as words. -/
def words : Style
  | .constant .none => "None"
  | .constant .yes => "True"
  | .constant .no => "False"
  | .operator .equal => "=="
  | .operator .unequal => "!="
  | .operator .less => "<"
  | .operator .atMost => "<="
  | .operator .greater => ">"
  | .operator .atLeast => ">="
  | .operator .both => "and"
  | .operator .either => "or"
  | .negation => "not "
  | .opening => "("
  | .closing => ")"

/-- Operators and constants as in the C family, with strict equality. -/
def symbols : Style
  | .constant .none => "null"
  | .constant .yes => "true"
  | .constant .no => "false"
  | .operator .equal => "==="
  | .operator .unequal => "!=="
  | .operator .both => "&&"
  | .operator .either => "||"
  | .negation => "!"
  | y => words y

/-- The words that are no names. -/
def reserved : List Text :=
  ["and", "or", "not", "is", "None", "True", "False", "self", "null", "undefined", "true",
    "false", "this"]

/-- A name or a numeral: a word that is not reserved. -/
structure Word where
  text : Text
  isName : IsName text
  free : text ∉ reserved

/-- A string in single or double quotes that ends with the quote it starts with. -/
structure Quoted where
  text : Text
  isClosed : isClosed text = true
  isPlain : text.head?.any isPlainQuote = true

/-- A word, a masked string or a symbol. -/
inductive Lexeme where
  | word (w : Word)
  | quoted (q : Quoted)
  | symbol (y : Symbol)

namespace Symbol

/-- Every symbol. -/
def all : List Symbol :=
  [.constant .none, .constant .yes, .constant .no, .operator .equal, .operator .unequal,
    .operator .less,
    .operator .atMost, .operator .greater, .operator .atLeast, .operator .both, .operator .either,
    .negation, .opening, .closing]

theorem mem_all (y : Symbol) : y ∈ all := by
  cases y with
  | constant k => cases k <;> decide
  | operator o => cases o <;> decide
  | _ => decide

/-- Whether the symbol stands where an operand is expected. -/
def enters : Symbol → Bool
  | .operator _ | .closing => false
  | _ => true

/-- Whether an operand is expected behind the symbol. -/
def leaves : Symbol → Bool
  | .constant _ | .closing => false
  | _ => true

/-- The blank on each side of an operator. -/
def pad : Symbol → Text
  | .operator _ => " "
  | _ => []

/-- A symbol with its blanks. -/
def laid (s : Style) (y : Symbol) : Text :=
  y.pad ++ s y ++ y.pad

theorem eq_of_mem_pad {y : Symbol} {c : Char} (h : c ∈ y.pad) : c = ' ' := by
  cases y with
  | operator o => exact mem_singleton.mp h
  | _ => cases h

end Symbol

namespace Lexeme

/-- Whether the lexeme stands where an operand is expected. -/
def enters : Lexeme → Bool
  | .symbol y => y.enters
  | _ => true

/-- Whether an operand is expected behind it. -/
def leaves : Lexeme → Bool
  | .symbol y => y.leaves
  | _ => false

/-- The text of a lexeme with the strings masked. -/
def masked (s : Style) (n : Nat) : Lexeme → Text
  | .word w => w.text
  | .quoted _ => maskToken n
  | .symbol y => y.laid s

/-- The number of the next string. -/
def next (n : Nat) : Lexeme → Nat
  | .quoted _ => n + 1
  | _ => n

end Lexeme

/-- The text of some lexemes with their strings masked, numbered from `n`. -/
def masked (s : Style) : Nat → List Lexeme → Text
  | _, [] => []
  | n, l :: ls => l.masked s n ++ masked s (l.next n) ls

/-- Each lexeme stands where the ones before it allow it. -/
def Alternates : Bool → List Lexeme → Prop
  | expects, [] => expects = false
  | expects, l :: ls => l.enters = expects ∧ Alternates l.leaves ls

/-- What may stand before an operand. -/
def openings : List (Option Char) := [none, some ' ', some '(', some '!']

/-- A character that is no part of an operator. -/
def startsOperand (c : Char) : Bool :=
  !isBlank c && !among "=&|" c

/-- Whether the text may stand where an operand is expected or where one has ended. -/
def fits (expects : Bool) (t : Text) : Bool :=
  if expects then t.head?.any startsOperand else t.head?.all (among " )")

variable {p : Pattern} {new rest out : Text} {old young : Style} {before : Option Char}
    {expects : Bool} {ls : List Lexeme}

/-- From every place where the text may stand in an expression, replacing turns it into another. -/
structure Ready (p : Pattern) (new : Text) (expects : Bool) (t out : Text) : Prop where
  fits : fits expects t = true
  turns : ∀ before, (expects = true → before ∈ openings) → Turns p new before t out

/-- A replacement that turns the spelling of each lexeme into another. -/
structure Stage (p : Pattern) (new : Text) (old young : Style) : Prop where
  needs : p.needs (fun _ => true) = true
  ready : ∀ (l : Lexeme) (n : Nat) {rest out : Text}, Ready p new l.leaves rest out →
    Ready p new l.enters (l.masked old n ++ rest) (l.masked young n ++ out)

theorem Ready.turns_any (h : Ready p new false rest out) (before : Option Char) :
    Turns p new before rest out :=
  h.turns before fun hexpects => absurd hexpects Bool.false_ne_true

/-- One replacement over a whole expression. -/
theorem Stage.run (h : Stage p new old young) (hls : Alternates expects ls) (n : Nat) :
    Ready p new expects (masked old n ls) (masked young n ls) := by
  induction ls generalizing expects n with
  | nil =>
    obtain rfl : expects = false := hls
    exact ⟨rfl, fun before _ => .nil h.needs before⟩
  | cons l ls ih =>
    obtain ⟨rfl, hrest⟩ := hls
    exact h.ready l n (ih hrest _)

theorem Stage.replaceWith_eq (h : Stage p new old young) (hls : Alternates true ls) (n : Nat) :
    p.replaceWith new (masked old n ls) = masked young n ls :=
  ((h.run hls n).turns none fun _ => mem_cons_self).replaceWith_eq

/-! ## Lexemes that stay -/

theorem startsOperand_of_isWord {c : Char} (hc : isWord c = true) : startsOperand c = true := by
  have hother : among "=&|" c = false := by
    refine Bool.eq_false_iff.mpr fun hmem => ?_
    have hall : ∀ d ∈ "=&|".toList, isWord d = false := by decide
    rw [hall c (contains_iff_mem.mp hmem)] at hc
    cases hc
  rw [startsOperand, isBlank_eq_false_of_isWord hc, hother]
  rfl

/-- What may stand behind an operand. -/
def endings : List Sketch :=
  [.rest fun _ => false, .sign ' ' (.rest fun _ => true), .sign ')' (.rest fun _ => true)]

theorem exists_ending (h : fits false rest = true) :
    ∃ x ∈ endings, ∀ before, x.Draws before rest := by
  cases rest with
  | nil => exact ⟨_, mem_cons_self, fun _ => forall_mem_nil _⟩
  | cons c t =>
    have hc : c = ' ' ∨ c = ')' := by simpa [fits, among] using h
    rcases hc with rfl | rfl
    · exact ⟨_, mem_cons_of_mem _ mem_cons_self, fun _ => ⟨t, rfl, fun _ _ => rfl⟩⟩
    · exact ⟨_, mem_cons_of_mem _ (mem_cons_of_mem _ mem_cons_self),
        fun _ => ⟨t, rfl, fun _ _ => rfl⟩⟩

/-- The pattern leads nowhere from the start of a word that is not reserved, nor from inside a
word. -/
def sparesWords (p : Pattern) : Bool :=
  endings.all fun x => (p.leads (.word reserved (some []) x)).isEmpty &&
    ((p.leads (.word reserved none x)).isEmpty || (p.leads (.word [] (some []) x)).isEmpty)

theorem mem_of_isDigit {c : Char} (h : c.isDigit = true) : c ∈ "0123456789".toList := by
  have hle : 48 ≤ c.toNat ∧ c.toNat ≤ 57 := by simpa [Char.isDigit, UInt32.le_iff_toNat_le] using h
  rw [← Char.ofNat_toNat c]
  have hall : ∀ n < 58, 48 ≤ n → Char.ofNat n ∈ "0123456789".toList := by decide
  exact hall _ (by omega) hle.1

/-- The spelling of a symbol fits where it stands, and what follows it fits there. -/
def placed (s : Style) (before : Option Char) (rest : Text) (y : Symbol) : Bool :=
  fits y.enters (y.laid s ++ rest) &&
    (!y.leaves || decide ((y.laid s).getLast?.or before ∈ openings))

/-- The spelling of a symbol stays, and no match starts in it. -/
def steady (p : Pattern) (old young : Style) (i : Nat) (before : Option Char) (rest : Text)
    (y : Symbol) : Bool :=
  decide (young y = old y) &&
    (if y.enters then openings else [before]).all fun before =>
    quiet p i before (y.pad ++ old y) (y.pad ++ rest)

/-- A replacement that leaves words, tokens and all symbols but the targets alone. -/
structure Spares (p : Pattern) (old young : Style) (targets : List Symbol) : Prop where
  needs : p.needs (fun _ => true) = true := by rfl
  judged : p.Judged := by
    repeat' first
      | exact Sketch.judged_isBlank
      | refine forall_mem_cons.mpr ⟨?_, ?_⟩
      | exact forall_mem_nil _
  word : sparesWords p = true := by rfl
  token : ∀ c ∈ "\x000123456789".toList, p.beginsWith c = false := by decide
  placed : ∀ before rest, (Symbol.all.all fun y => placed old before rest y) = true := by
    intros; rfl
  steady : ∀ i before rest,
  (Symbol.all.all fun y => decide (y ∈ targets) || steady p old young i before rest y) = true := by
    intros; rfl

namespace Spares

variable {targets : List Symbol} {y : Symbol} (hp : Spares p old young targets)

include hp

theorem turns_word (w : Word) (h : Ready p new false rest out) (before : Option Char) :
    Turns p new before (w.text ++ rest) (w.text ++ out) := by
  obtain ⟨x, hx, hdraws⟩ := exists_ending h.fits
  have hleads := all_eq_true.mp hp.word x hx
  rw [Bool.and_eq_true, Bool.or_eq_true] at hleads
  refine Turns.skip (h.turns_any _) fun a b hab hb i => eq_nil_iff_forall_not_mem.mpr fun u hu => ?_
  obtain ⟨piece, hreads⟩ := reads_of_mem_outcomes hu
  have hword := w.isName.2
  rw [hab, forall_mem_append] at hword
  rcases eq_nil_or_concat' a with rfl | ⟨front, d, rfl⟩
  · obtain rfl : w.text = b := hab
    exact not_reads_of_leads hp.judged hleads.1 (Sketch.draws_word hb hword.2 w.free hdraws) hreads
  · have hd : isWord d = true := hword.1 d (by simp)
    rcases hleads.2 with hinside | hsign
    · exact not_reads_of_leads hp.judged hinside ⟨b, rest, rfl, hword.2, fun v hv =>
        absurd hv (Option.not_mem_none v), .inl (by simp [hd]), hdraws _⟩ hreads
    · exact not_reads_of_leads hp.judged hsign
        (Sketch.draws_word hb hword.2 not_mem_nil hdraws) hreads

theorem mem_openings (hleaves : y.leaves = true) (before : Option Char) :
    (y.laid old).getLast?.or before ∈ openings := by
  have hplaced := all_eq_true.mp (hp.placed before []) y y.mem_all
  simpa [Spelling.placed, hleaves] using (Bool.and_eq_true_iff.mp hplaced).2

theorem turns_steady
    (hblank : ∀ {rest : Text}, fits true rest = true → ∀ before i,
    p.outcomes ⟨before, ' ' :: rest, i, []⟩ = [])
    (hy : y ∉ targets) (hbefore : y.enters = true → before ∈ openings)
    (h : Ready p new y.leaves rest out) :
    Turns p new before (y.laid old ++ rest) (y.laid young ++ out) := by
  have hsteady (i : Nat) := all_eq_true.mp (hp.steady i before rest) y y.mem_all
  simp only [hy, decide_false, Bool.false_or, Spelling.steady, Bool.and_eq_true, decide_eq_true_eq,
    all_eq_true] at hsteady
  have hmem : before ∈ if y.enters then openings else [before] := by
    split
    · exact hbefore ‹_›
    · exact mem_singleton_self before
  have hafter := h.turns ((y.laid old).getLast?.or before) fun hleaves =>
    hp.mem_openings hleaves before
  rw [Symbol.laid, Symbol.laid, (hsteady 0).1, append_assoc (y.pad ++ old y),
    append_assoc (y.pad ++ old y)]
  refine .of_quiet hp.needs (fun i => (hsteady i).2 before hmem) ?_
  cases y with
  | operator o => exact .step (h.turns (some ' ') fun _ => by decide) fun i => hblank h.fits _ i
  | _ => simpa [Symbol.laid, Symbol.pad] using hafter

/-- A replacement that turns its symbols and no others is a stage. -/
theorem stage
    (hblank : ∀ {rest : Text}, fits true rest = true → ∀ before i,
    p.outcomes ⟨before, ' ' :: rest, i, []⟩ = [])
    (htarget : ∀ y ∈ targets, ∀ {rest out : Text}, Ready p new y.leaves rest out → ∀ before,
      (y.enters = true → before ∈ openings) →
      Turns p new before (y.laid old ++ rest) (y.laid young ++ out)) : Stage p new old young where
  needs := hp.needs
  ready := by
    intro l n rest out h
    cases l with
    | word w =>
      refine ⟨?_, fun before _ => hp.turns_word w h before⟩
      obtain ⟨c, t, ht⟩ := exists_cons_of_ne_nil w.isName.1
      rw [Lexeme.masked, ht]
      exact startsOperand_of_isWord (w.isName.2 c (by simp [ht]))
    | quoted q =>
      refine ⟨rfl, fun before _ =>
        .of_beginsWith hp.needs (fun c hc => hp.token c ?_) (h.turns_any _)⟩
      simp only [Lexeme.masked, maskToken, mem_cons, mem_append, not_mem_nil, or_false] at hc
      rcases hc with rfl | hc | rfl
      · exact mem_cons_self
      · exact mem_cons_of_mem
          _ (mem_of_isDigit (Nat.isDigit_of_mem_toDigits (by decide) (by decide) hc))
      · exact mem_cons_self
    | symbol y =>
      refine ⟨(Bool.and_eq_true_iff.mp (all_eq_true.mp (hp.placed none rest) y y.mem_all)).1,
        fun before hbefore => ?_⟩
      by_cases hy : y ∈ targets
      · exact htarget y hy h before hbefore
      · exact hp.turns_steady hblank hy hbefore h

end Spares

end Spelling

end CodeConverter
